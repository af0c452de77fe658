import Napitia.Hir.Body

/-!
# Everywhere in a body

A property of expressions and one of statements, asked of every part of a piece of a
function body.
-/
namespace Napitia.Hir.Body
open Nir Lower
open Hir (ExprId)

section
variable (P : HirExpr → Prop) (Q : HirStmt → Prop)

mutual

def HirExpr.Everywhere : HirExpr → Prop
  | .unary id op operand => P (.unary id op operand) ∧ operand.Everywhere
  | .cast id operand => P (.cast id operand) ∧ operand.Everywhere
  | .tryExpr id operand => P (.tryExpr id operand) ∧ operand.Everywhere
  | .raise id operand => P (.raise id operand) ∧ operand.Everywhere
  | .field id base => P (.field id base) ∧ base.Everywhere
  | .binary id op left right =>
    P (.binary id op left right) ∧ left.Everywhere ∧ right.Everywhere
  | .assign id target op value =>
    P (.assign id target op value) ∧ target.Everywhere ∧ value.Everywhere
  | .call id callee args => P (.call id callee args) ∧ callee.Everywhere ∧ ArgsEverywhere args
  | .ifExpr id condition thenBranch elseBranch =>
    P (.ifExpr id condition thenBranch elseBranch) ∧ condition.Everywhere ∧
      thenBranch.Everywhere ∧ ElseEverywhere elseBranch
  | .matchExpr id scrutinee arms =>
    P (.matchExpr id scrutinee arms) ∧ scrutinee.Everywhere ∧ MatchArmsEverywhere arms
  | .block b => P (.block b) ∧ b.Everywhere
  | .returnExpr id value => P (.returnExpr id value) ∧ ValueEverywhere value
  | .breakExpr id value => P (.breakExpr id value) ∧ ValueEverywhere value
  | .recordLiteral id record fields =>
    P (.recordLiteral id record fields) ∧ FieldsEverywhere fields
  | .handle id operand arms =>
    P (.handle id operand arms) ∧ operand.Everywhere ∧ HandleArmsEverywhere arms
  | e => P e

def ValueEverywhere : Option HirExpr → Prop
  | none => True
  | some value => value.Everywhere

def ArgsEverywhere : List HirExpr → Prop
  | [] => True
  | arg :: rest => arg.Everywhere ∧ ArgsEverywhere rest

def FieldsEverywhere : List HirFieldInit → Prop
  | [] => True
  | .mk _ value :: rest => value.Everywhere ∧ FieldsEverywhere rest

def ElseEverywhere : Option HirElse → Prop
  | none => True
  | some (.block b) => b.Everywhere
  | some (.ifExpr e) => e.Everywhere

def HirMatchArmBody.Everywhere : HirMatchArmBody → Prop
  | .expr e => e.Everywhere
  | .block b => b.Everywhere

def MatchArmsEverywhere : List HirMatchArm → Prop
  | [] => True
  | .mk _ body :: rest => body.Everywhere ∧ MatchArmsEverywhere rest

def HandleArmsEverywhere : List HirHandleArm → Prop
  | [] => True
  | .mk _ body :: rest => body.Everywhere ∧ HandleArmsEverywhere rest

def HirBlock.Everywhere : HirBlock → Prop
  | .mk _ statements tail => StmtsEverywhere statements ∧ ValueEverywhere tail

def StmtsEverywhere : List HirStmt → Prop
  | [] => True
  | st :: rest => st.Everywhere ∧ StmtsEverywhere rest

def HirStmt.Everywhere : HirStmt → Prop
  | .binding binding value => Q (.binding binding value) ∧ value.Everywhere
  | .expr e => Q (.expr e) ∧ e.Everywhere
  | .defer e => Q (.defer e) ∧ e.Everywhere
  | .drop e => Q (.drop e) ∧ e.Everywhere
  | .whileLoop condition body =>
    Q (.whileLoop condition body) ∧ condition.Everywhere ∧ body.Everywhere
  | .loop body => Q (.loop body) ∧ body.Everywhere
  | .observe id source aliased body =>
    Q (.observe id source aliased body) ∧ source.Everywhere ∧ body.Everywhere

end

section
variable {P Q} (hP : ∀ e, P e) (hQ : ∀ st, Q st)
include hP hQ

set_option linter.unusedSectionVars false

mutual

theorem HirExpr.everywhere : ∀ e : HirExpr, e.Everywhere P Q
  | .unary _ _ operand | .cast _ operand | .tryExpr _ operand | .raise _ operand
  | .field _ operand => by
    unfold HirExpr.Everywhere
    exact ⟨hP _, HirExpr.everywhere operand⟩
  | .binary _ _ left right => by
    unfold HirExpr.Everywhere
    exact ⟨hP _, HirExpr.everywhere left, HirExpr.everywhere right⟩
  | .assign _ target _ value => by
    unfold HirExpr.Everywhere
    exact ⟨hP _, HirExpr.everywhere target, HirExpr.everywhere value⟩
  | .call _ callee args => by
    unfold HirExpr.Everywhere
    exact ⟨hP _, HirExpr.everywhere callee, argsEverywhere args⟩
  | .ifExpr _ condition thenBranch elseBranch => by
    unfold HirExpr.Everywhere
    exact ⟨hP _, HirExpr.everywhere condition, HirBlock.everywhere thenBranch,
      elseEverywhere elseBranch⟩
  | .matchExpr _ scrutinee arms => by
    unfold HirExpr.Everywhere
    exact ⟨hP _, HirExpr.everywhere scrutinee, matchArmsEverywhere arms⟩
  | .handle _ operand arms => by
    unfold HirExpr.Everywhere
    exact ⟨hP _, HirExpr.everywhere operand, handleArmsEverywhere arms⟩
  | .block b => by
    unfold HirExpr.Everywhere
    exact ⟨hP _, HirBlock.everywhere b⟩
  | .returnExpr _ value | .breakExpr _ value => by
    unfold HirExpr.Everywhere
    exact ⟨hP _, valueEverywhere value⟩
  | .recordLiteral _ _ fields => by
    unfold HirExpr.Everywhere
    exact ⟨hP _, fieldsEverywhere fields⟩
  | .int .. | .float .. | .str .. | .char .. | .bool .. | .localVar .. | .function ..
  | .caseRef .. | .protocolMethodRef .. | .continueExpr .. | .error .. => by
    unfold HirExpr.Everywhere
    exact hP _

theorem valueEverywhere : ∀ value, ValueEverywhere P Q value
  | none => by
    unfold ValueEverywhere
    trivial
  | some value => by
    unfold ValueEverywhere
    exact HirExpr.everywhere value

theorem argsEverywhere : ∀ args, ArgsEverywhere P Q args
  | [] => by
    unfold ArgsEverywhere
    trivial
  | arg :: rest => by
    unfold ArgsEverywhere
    exact ⟨HirExpr.everywhere arg, argsEverywhere rest⟩

theorem fieldsEverywhere : ∀ fields, FieldsEverywhere P Q fields
  | [] => by
    unfold FieldsEverywhere
    trivial
  | .mk _ value :: rest => by
    unfold FieldsEverywhere
    exact ⟨HirExpr.everywhere value, fieldsEverywhere rest⟩

theorem elseEverywhere : ∀ branch, ElseEverywhere P Q branch
  | none => by
    unfold ElseEverywhere
    trivial
  | some (.block b) => by
    unfold ElseEverywhere
    exact HirBlock.everywhere b
  | some (.ifExpr e) => by
    unfold ElseEverywhere
    exact HirExpr.everywhere e

theorem HirMatchArmBody.everywhere : ∀ body : HirMatchArmBody, body.Everywhere P Q
  | .expr e => by
    unfold HirMatchArmBody.Everywhere
    exact HirExpr.everywhere e
  | .block b => by
    unfold HirMatchArmBody.Everywhere
    exact HirBlock.everywhere b

theorem matchArmsEverywhere : ∀ arms, MatchArmsEverywhere P Q arms
  | [] => by
    unfold MatchArmsEverywhere
    trivial
  | .mk _ body :: rest => by
    unfold MatchArmsEverywhere
    exact ⟨HirMatchArmBody.everywhere body, matchArmsEverywhere rest⟩

theorem handleArmsEverywhere : ∀ arms, HandleArmsEverywhere P Q arms
  | [] => by
    unfold HandleArmsEverywhere
    trivial
  | .mk _ body :: rest => by
    unfold HandleArmsEverywhere
    exact ⟨HirMatchArmBody.everywhere body, handleArmsEverywhere rest⟩

theorem HirBlock.everywhere : ∀ b : HirBlock, b.Everywhere P Q
  | .mk _ statements tail => by
    unfold HirBlock.Everywhere
    exact ⟨stmtsEverywhere statements, valueEverywhere tail⟩

theorem stmtsEverywhere : ∀ statements, StmtsEverywhere P Q statements
  | [] => by
    unfold StmtsEverywhere
    trivial
  | st :: rest => by
    unfold StmtsEverywhere
    exact ⟨HirStmt.everywhere st, stmtsEverywhere rest⟩

theorem HirStmt.everywhere : ∀ st : HirStmt, st.Everywhere P Q
  | .binding _ value => by
    unfold HirStmt.Everywhere
    exact ⟨hQ _, HirExpr.everywhere value⟩
  | .expr e | .defer e | .drop e => by
    unfold HirStmt.Everywhere
    exact ⟨hQ _, HirExpr.everywhere e⟩
  | .whileLoop condition body => by
    unfold HirStmt.Everywhere
    exact ⟨hQ _, HirExpr.everywhere condition, HirBlock.everywhere body⟩
  | .loop body => by
    unfold HirStmt.Everywhere
    exact ⟨hQ _, HirBlock.everywhere body⟩
  | .observe _ source _ body => by
    unfold HirStmt.Everywhere
    exact ⟨hQ _, HirExpr.everywhere source, HirBlock.everywhere body⟩

end

end

end

end Napitia.Hir.Body

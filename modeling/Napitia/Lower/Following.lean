import Napitia.Lower.Dispatch

/-!
# Lowering follows the trail of a body

One lemma for each kind of node, over the whole recursion.
-/
namespace Napitia.Lower
open Nir StateT
open Hir (ExprId HirHandleArmKind)
open Hir.Body

section
variable (B : BodyLowering) (retTy : Ty)

/-! ### Statements -/

theorem andThen_ne_dangling {t u : Trail} (ht : t.ending ≠ .dangling) (hu : u.ending ≠ .dangling) :
    (t.andThen u).ending ≠ .dangling := by
  by_cases hending : t.ending = .value
  · rw [andThen_value hending]
    exact hu
  · rw [andThen_gone hending]
    exact ht

mutual

theorem stmtTrail_ne_dangling : ∀ stmt, (stmtTrail B retTy stmt).ending ≠ .dangling
  | .binding .. | .expr _ | .defer _ | .whileLoop .. => by
    unfold stmtTrail
    exact asStmt_ne_dangling _
  | .drop _ => by
    unfold stmtTrail
    split
    · simp [Trail.passes]
    · exact asStmt_ne_dangling _
  | .loop _ => by
    unfold stmtTrail
    simp [Trail.joined]
  | .observe _ _ _ body => by
    unfold stmtTrail
    exact andThen_ne_dangling (by simp) (scopedVoidTrail_ne_dangling body)

theorem stmtsTrail_ne_dangling : ∀ stmts, (stmtsTrail B retTy stmts).ending ≠ .dangling
  | [] => by
    unfold stmtsTrail
    simp
  | stmt :: rest => by
    unfold stmtsTrail
    exact andThen_ne_dangling (stmtTrail_ne_dangling stmt) (stmtsTrail_ne_dangling rest)

theorem scopedVoidTrail_ne_dangling : ∀ body, (scopedVoidTrail B retTy body).ending ≠ .dangling
  | .mk _ stmts _ => by
    unfold scopedVoidTrail
    rw [ending_inScope]
    exact andThen_ne_dangling (stmtsTrail_ne_dangling stmts) (asStmt_ne_dangling _)

end

/-! ### The recursion -/

variable {B retTy}

theorem lowersTo_lowerBinary {id : ExprId} {left right : HirExpr} {x y : Build LoweredExpr}
    (op : BinaryOp) (hx : LowersTo B retTy x (exprTrail B retTy left))
    (hy : LowersTo B retTy y (exprTrail B retTy right)) :
    LowersTo B retTy (lowerBinary B op left right x y)
      (exprTrail B retTy (.binary id op left right)) := by
  unfold exprTrail
  cases op with
  | and => exact lowersTo_lowerShortCircuit false hx hy
  | or => exact lowersTo_lowerShortCircuit true hx hy
  | range => exact lowers_throw _
  | rangeInclusive => exact lowers_throw _
  | _ => exact lowersTo_lowerOperator _ hx hy

theorem lowersTo_value {ty : Ty} {kind : ValueKind}
    (hkind : ∀ v, beginning (.value v ty kind) = none) :
    LowersTo B retTy (valueOf (pushValue ty kind)) {} :=
  (straight_pushValue hkind).lowersTo

theorem length_handleBodies (arms : List HirHandleArm) :
    (handleKinds arms).length = (handleBodies B arms).length := by
  induction arms with
  | nil => unfold handleBodies; rfl
  | cons arm arms ih =>
    obtain ⟨kind, body⟩ := arm
    unfold handleBodies
    exact congrArg (· + 1) ih

theorem length_handlersIntoReturnSink (finish : ValueId → Build LoweredExpr) (hint : Ty)
    (arms : List HirHandleArm) :
    (handleKinds arms).length = (handlersIntoReturnSink B finish hint arms).length := by
  induction arms with
  | nil => unfold handlersIntoReturnSink; rfl
  | cons arm arms ih =>
    obtain ⟨kind, body⟩ := arm
    unfold handlersIntoReturnSink
    exact congrArg (· + 1) ih

/-- A returned value is finished the same way at each of its leaves. -/
def Finishes (B : BodyLowering) (retTy : Ty) (finish : ValueId → Build LoweredExpr) : Prop :=
  ∀ v, LowersTo B retTy (finish v) { ending := .closed }

mutual

/-- Every expression leaves its trail behind, by induction on it. -/
theorem lowersTo_lowerExpr : ∀ e, LowersTo B retTy (lowerExpr B e) (exprTrail B retTy e)
  | .int id value => by
    unfold lowerExpr exprTrail
    apply lowers_orFail_bind
    intro ty _
    exact (straight_signedLiteral _ _ _).lowersTo
  | .float .. | .str .. | .char .. | .bool .. | .error .. => by
    unfold lowerExpr exprTrail
    exact lowersTo_value fun _ => rfl
  | .localVar _ binding => by
    unfold lowerExpr exprTrail
    exact lowersTo_lowerLocal binding
  | .function .. | .protocolMethodRef .. | .cast .. => by
    unfold lowerExpr exprTrail
    exact lowers_throw _
  | .caseRef id variant case => by
    unfold lowerExpr exprTrail
    exact lowersTo_lowerVariantConstruct variant case id .nil (reads_orFail _ _)
  | .unary _ op operand => by
    unfold lowerExpr exprTrail
    exact lowersTo_lowerUnary op (lowersTo_lowerExpr operand)
  | .binary _ op left right => by
    unfold lowerExpr
    exact lowersTo_lowerBinary op (lowersTo_lowerExpr left) (lowersTo_lowerExpr right)
  | .assign _ target op value => by
    unfold lowerExpr
    exact lowersTo_lowerAssign op (lowersTo_lowerExpr target) (lowersTo_lowerExpr value)
  | .call _ callee args => by
    unfold lowerExpr exprTrail
    exact lowersTo_lowerCall (lowersTo_lowerExpr callee) (argsLower_lowerArgs args)
  | .field _ base => by
    unfold lowerExpr exprTrail
    exact lowersTo_lowerField (lowersTo_lowerExpr base)
  | .tryExpr id operand => by
    unfold lowerExpr
    exact lowersTo_lowerTry id (lowersTo_lowerExpr operand) (partsOf_callParts operand)
  | .ifExpr id condition thenBranch elseBranch => by
    unfold lowerExpr exprTrail
    apply lowers_orFail_bind
    intro ty hty
    have hnever : isNeverExpr B id = decide (ty = .never) := isNeverExpr_eq hty
    rw [hnever]
    exact lowersTo_lowerIf ty (lowersTo_lowerExpr condition) (lowersTo_scopedBlock thenBranch)
      (lowersTo_lowerElse elseBranch).1 (lowersTo_lowerElse elseBranch).2
  | .matchExpr id scrutinee arms => by
    unfold lowerExpr exprTrail
    apply lowers_orFail_bind
    intro ty hty
    have hnever : isNeverExpr B id = decide (ty = .never) := isNeverExpr_eq hty
    rw [hnever]
    exact lowersTo_lowerMatchExpr (lowersTo_lowerExpr scrutinee) (bodiesLower_armBodies _ arms) rfl _
  | .block body => by
    unfold lowerExpr exprTrail
    exact lowersTo_scopedBlock body
  | .returnExpr id none => by
    unfold lowerExpr exprTrail
    exact lowersTo_lowerReturnVoid id
  | .returnExpr id (some value) => by
    unfold lowerExpr exprTrail
    exact lowersTo_lowerReturnValue id (lowersTo_lowerExpr value)
      (lowersTo_lowerIntoReturnSink (fun v => lowersTo_finishReturn _ v) retTy value _
        (lowersTo_lowerExpr value))
  | .breakExpr id value => by
    unfold lowerExpr exprTrail
    exact lowersTo_lowerBreak id value.isSome
  | .continueExpr id => by
    unfold lowerExpr exprTrail
    exact lowersTo_lowerJump id _ _
  | .recordLiteral id record fields => by
    unfold lowerExpr exprTrail
    exact lowersTo_lowerRecordLiteral record (argsLower_lowerFields fields)
  | .raise id operand => by
    unfold lowerExpr exprTrail
    exact lowersTo_lowerRaise id (lowersTo_lowerExpr operand)
  | .handle id operand arms => by
    unfold lowerExpr exprTrail
    apply lowers_orFail_bind
    intro ty hty
    have hnever : isNeverExpr B id = decide (ty = .never) := isNeverExpr_eq hty
    rw [hnever]
    exact lowersTo_lowerHandle (lowersTo_lowerExpr operand) (partsOf_callParts operand)
      (bodiesLower_handleBodies _ arms) rfl (length_handleBodies arms)

theorem argsLower_lowerArgs : ∀ args, ArgsLower B retTy args (lowerArgs B args) (argsTrail B retTy args)
  | [] => by
    unfold lowerArgs argsTrail
    exact .nil
  | arg :: rest => by
    unfold lowerArgs argsTrail
    exact .cons (lowersTo_lowerExpr arg) (argsLower_lowerArgs rest)

theorem argsLower_lowerFields : ∀ fields,
    ArgsLower B retTy ((fieldValues fields).map (·.2)) (lowerFields B fields)
      (fieldsTrail B retTy fields)
  | [] => by
    unfold lowerFields fieldsTrail
    exact .nil
  | .mk _ value :: rest => by
    unfold lowerFields fieldsTrail
    exact .cons (lowersTo_lowerExpr value) (argsLower_lowerFields rest)

theorem partsOf_callParts : ∀ e, PartsOf B retTy e (callParts B e)
  | .call _ callee args => by
    intro id callee' args' heq
    cases heq
    unfold callParts
    exact ⟨lowersTo_lowerExpr callee, argsLower_lowerArgs args⟩
  | .int .. | .float .. | .str .. | .char .. | .bool .. | .localVar .. | .function ..
  | .caseRef .. | .protocolMethodRef .. | .unary .. | .binary .. | .assign .. | .field ..
  | .cast .. | .tryExpr .. | .ifExpr .. | .matchExpr .. | .block .. | .returnExpr ..
  | .breakExpr .. | .continueExpr .. | .recordLiteral .. | .raise .. | .handle ..
  | .error .. => by
    intro id callee args heq
    cases heq

theorem lowersTo_lowerElse : ∀ other : Option HirElse,
    (∀ y, lowerElse B other = some y → LowersTo B retTy y (elseTrail B retTy other)) ∧
      (lowerElse B other = none → elseTrail B retTy other = {})
  | none => by
    unfold lowerElse elseTrail
    simp
  | some (.block body) => by
    unfold lowerElse elseTrail
    refine ⟨fun y hy => ?_, by simp⟩
    cases hy
    exact lowersTo_scopedBlock body
  | some (.ifExpr inner) => by
    unfold lowerElse elseTrail
    refine ⟨fun y hy => ?_, by simp⟩
    cases hy
    exact lowersTo_lowerExpr inner

theorem lowersTo_scopedBlock : ∀ body, LowersTo B retTy (scopedBlock B body) (scopedTrail B retTy body)
  | .mk id statements tail => by
    unfold scopedBlock scopedTrail
    refine lowersTo_lowerScopedBlock id (lowersTo_lowerBlockValue (stmtsLower_statementsOf statements) ?_)
    exact lowersTo_lowerTail tail

theorem lowersTo_lowerTail : ∀ tail : Option HirExpr,
    LowersTo B retTy ((lowerTail B tail).getD (valueOf unitValue)) (tailTrail B retTy tail)
  | none => by
    unfold lowerTail tailTrail
    exact lowersTo_unit
  | some tail => by
    unfold lowerTail tailTrail
    exact lowersTo_lowerExpr tail

theorem stmtsLower_statementsOf : ∀ statements,
    StmtsLower B retTy (statementsOf B statements) (stmtsTrail B retTy statements)
  | [] => by
    unfold statementsOf stmtsTrail
    exact .nil
  | stmt :: rest => by
    unfold statementsOf stmtsTrail
    exact .cons (lowersStmt_lowerStmt stmt) (stmtTrail_ne_dangling B retTy stmt)
      (stmtsLower_statementsOf rest)

theorem lowersStmt_scopedBlockVoid : ∀ body,
    LowersStmt B retTy (scopedBlockVoid B body) (scopedVoidTrail B retTy body)
  | .mk id statements none => by
    unfold scopedBlockVoid scopedVoidTrail lowerTail tailTrail
    exact lowersStmt_lowerScopedBlockVoid id
      (lowersStmt_lowerBlockVoid (stmtsLower_statementsOf statements) (by simp) fun _ => rfl)
  | .mk id statements (some tail) => by
    unfold scopedBlockVoid scopedVoidTrail lowerTail tailTrail
    refine lowersStmt_lowerScopedBlockVoid id
      (lowersStmt_lowerBlockVoid (stmtsLower_statementsOf statements) (fun x hx => ?_) (by simp))
    cases hx
    exact lowersTo_lowerExpr tail

theorem lowersStmt_lowerStmt : ∀ stmt, LowersStmt B retTy (lowerStmt B stmt) (stmtTrail B retTy stmt)
  | .binding binding value => by
    unfold lowerStmt stmtTrail
    exact lowersStmt_lowerBinding binding (lowersTo_lowerExpr value)
  | .expr expr => by
    unfold lowerStmt stmtTrail
    exact (lowersTo_lowerExpr expr).discarded
  | .defer expr => by
    unfold lowerStmt stmtTrail
    exact lowersStmt_lowerDefer fun id callee args heq => (partsOf_callParts expr id callee args heq).2
  | .drop expr => by
    unfold lowerStmt stmtTrail
    exact lowersStmt_lowerDrop expr.id (lowersTo_lowerExpr expr)
  | .whileLoop condition body => by
    unfold lowerStmt stmtTrail
    exact lowersStmt_lowerWhile (lowersTo_lowerExpr condition) (lowersStmt_scopedBlockVoid body)
  | .loop body => by
    unfold lowerStmt stmtTrail
    exact lowersStmt_lowerLoop (lowersStmt_scopedBlockVoid body)
  | .observe id _ aliased body => by
    unfold lowerStmt stmtTrail
    exact lowersStmt_lowerObserve id aliased body.id (lowersStmt_scopedBlockVoid body)

theorem lowersTo_armBody : ∀ body, LowersTo B retTy (armBody B body) (armBodyTrail B retTy body)
  | .expr expr => by
    unfold armBody armBodyTrail
    exact lowersTo_lowerExpr expr
  | .block (.mk _ statements tail) => by
    unfold armBody armBodyTrail
    exact lowersTo_lowerBlockValue (stmtsLower_statementsOf statements) (lowersTo_lowerTail tail)

theorem bodiesLower_armBodies (never : Bool) : ∀ arms,
    BodiesLower B retTy never (armBodies B arms) (armTrails B retTy never arms)
  | [] => by
    unfold armBodies armTrails
    exact .nil
  | .mk _ body :: rest => by
    unfold armBodies armTrails
    exact .cons (fun _ hsink => lowersStmt_lowerArmBody body.id (lowersTo_armBody body) hsink)
      (bodiesLower_armBodies never rest)

theorem bodiesLower_handleBodies (never : Bool) : ∀ arms,
    BodiesLower B retTy never (handleBodies B arms) (handlerTrails B retTy never arms)
  | [] => by
    unfold handleBodies handlerTrails
    exact .nil
  | .mk _ body :: rest => by
    unfold handleBodies handlerTrails
    exact .cons (fun _ hsink => lowersStmt_lowerArmBody body.id (lowersTo_armBody body) hsink)
      (bodiesLower_handleBodies never rest)

theorem lowersTo_lowerIntoReturnSink {finish : ValueId → Build LoweredExpr}
    (hfinish : Finishes B retTy finish) (hint : Ty) : ∀ e x,
    LowersTo B retTy x (exprTrail B retTy e) →
      LowersTo B retTy (lowerIntoReturnSink B finish hint e x)
        (sinkTrail B retTy e (exprTrail B retTy e))
  | .block body, _, _ => by
    unfold lowerIntoReturnSink sinkTrail
    exact lowersTo_blockIntoReturnSink hfinish hint body
  | .matchExpr _ scrutinee arms, _, _ => by
    unfold lowerIntoReturnSink sinkTrail
    exact lowersTo_lowerMatchExprIntoReturnSink (lowersTo_lowerExpr scrutinee)
      (bodiesLower_armsIntoReturnSink hfinish hint arms) _
  | .handle _ operand arms, _, _ => by
    unfold lowerIntoReturnSink sinkTrail
    exact lowersTo_lowerHandleIntoReturnSink (lowersTo_lowerExpr operand) (partsOf_callParts operand)
      (bodiesLower_handlersIntoReturnSink hfinish hint arms)
      (length_handlersIntoReturnSink finish hint arms)
  | .ifExpr _ condition thenBranch elseBranch, _, _ => by
    unfold lowerIntoReturnSink sinkTrail
    exact lowersTo_lowerIfIntoReturnSink (lowersTo_lowerExpr condition)
      (lowersTo_blockIntoReturnSink hfinish hint thenBranch)
      (lowersTo_elseIntoReturnSink hfinish hint elseBranch)
  | .int .., _, hx | .float .., _, hx | .str .., _, hx | .char .., _, hx | .bool .., _, hx
  | .localVar .., _, hx | .function .., _, hx | .caseRef .., _, hx | .protocolMethodRef .., _, hx
  | .unary .., _, hx | .binary .., _, hx | .assign .., _, hx | .call .., _, hx | .field .., _, hx
  | .cast .., _, hx | .tryExpr .., _, hx | .returnExpr .., _, hx | .breakExpr .., _, hx
  | .continueExpr .., _, hx | .recordLiteral .., _, hx | .raise .., _, hx | .error .., _, hx => by
    unfold lowerIntoReturnSink sinkTrail
    exact lowersTo_lowerLeaf hint hfinish hx

theorem lowersTo_blockIntoReturnSink {finish : ValueId → Build LoweredExpr}
    (hfinish : Finishes B retTy finish) (hint : Ty) : ∀ body,
    LowersTo B retTy (blockIntoReturnSink B finish hint body) (sinkBlockTrail B retTy body)
  | .mk _ statements none => by
    unfold blockIntoReturnSink sinkBlockTrail tailIntoReturnSink sinkTailTrail
    exact lowersTo_lowerIntoReturnSinkBlock (stmtsLower_statementsOf statements)
      (lowersTo_finishUnit hfinish)
  | .mk _ statements (some tail) => by
    unfold blockIntoReturnSink sinkBlockTrail tailIntoReturnSink sinkTailTrail
    exact lowersTo_lowerIntoReturnSinkBlock (stmtsLower_statementsOf statements)
      (lowersTo_lowerIntoReturnSink hfinish hint tail _ (lowersTo_lowerExpr tail))

theorem lowersTo_elseIntoReturnSink {finish : ValueId → Build LoweredExpr}
    (hfinish : Finishes B retTy finish) (hint : Ty) : ∀ other : Option HirElse,
    LowersTo B retTy (elseIntoReturnSink B finish hint other) (sinkElseTrail B retTy other)
  | none => by
    unfold elseIntoReturnSink sinkElseTrail
    exact lowersTo_finishUnit hfinish
  | some (.block body) => by
    unfold elseIntoReturnSink sinkElseTrail
    exact lowersTo_blockIntoReturnSink hfinish hint body
  | some (.ifExpr inner) => by
    unfold elseIntoReturnSink sinkElseTrail
    exact lowersTo_lowerIntoReturnSink hfinish hint inner _ (lowersTo_lowerExpr inner)

theorem bodiesLower_armsIntoReturnSink {finish : ValueId → Build LoweredExpr}
    (hfinish : Finishes B retTy finish) (hint : Ty) : ∀ arms,
    BodiesLower B retTy true (armsIntoReturnSink B finish hint arms) (sinkArmTrails B retTy arms)
  | [] => by
    unfold armsIntoReturnSink sinkArmTrails
    exact .nil
  | .mk _ body :: rest => by
    unfold armsIntoReturnSink sinkArmTrails
    exact .cons (fun _ _ => lowersStmt_lowerArmIntoReturnSink
        (lowersTo_armIntoReturnSink hfinish hint body))
      (bodiesLower_armsIntoReturnSink hfinish hint rest)

theorem bodiesLower_handlersIntoReturnSink {finish : ValueId → Build LoweredExpr}
    (hfinish : Finishes B retTy finish) (hint : Ty) : ∀ arms,
    BodiesLower B retTy true (handlersIntoReturnSink B finish hint arms)
      (sinkHandlerTrails B retTy arms)
  | [] => by
    unfold handlersIntoReturnSink sinkHandlerTrails
    exact .nil
  | .mk _ body :: rest => by
    unfold handlersIntoReturnSink sinkHandlerTrails
    exact .cons (fun _ _ => lowersStmt_lowerArmIntoReturnSink
        (lowersTo_armIntoReturnSink hfinish hint body))
      (bodiesLower_handlersIntoReturnSink hfinish hint rest)

theorem lowersTo_armIntoReturnSink {finish : ValueId → Build LoweredExpr}
    (hfinish : Finishes B retTy finish) (hint : Ty) : ∀ body,
    LowersTo B retTy (armIntoReturnSink B finish hint body) (sinkArmTrail B retTy body)
  | .expr expr => by
    unfold armIntoReturnSink sinkArmTrail
    exact lowersTo_lowerIntoReturnSink hfinish hint expr _ (lowersTo_lowerExpr expr)
  | .block body => by
    unfold armIntoReturnSink sinkArmTrail
    exact lowersTo_blockIntoReturnSink hfinish hint body

end

end

end Napitia.Lower

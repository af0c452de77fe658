import Napitia.Lower.Statements

/-!
# Lowering a function body

The recursion over a body. Each construct is given the lowering of its parts; a part in
the position of a returned resource is lowered towards `finish`, which every leaf reaches
on its own.
-/
namespace Napitia.Lower
open Nir
open Hir (ExprId HirHandleArmKind)
open Hir.Body

/-- The patterns of a `match`. -/
def armPatterns (arms : List HirMatchArm) : List HirPattern := arms.map fun
  | .mk pattern _ => pattern

def handleKinds (arms : List HirHandleArm) : List HirHandleArmKind := arms.map fun
  | .mk kind _ => kind

def fieldValues (fields : List HirFieldInit) : List (ℕ × HirExpr) := fields.map fun
  | .mk index value => (index, value)

def asFirstClass (B : BodyLowering) (id : ExprId) (what : String) : Diagnostic :=
  unsupported ("using " ++ what ++ "`" ++ B.interner (B.nameOf id) ++ "` as a first-class value")

section
variable (B : BodyLowering)

mutual

def lowerExpr : HirExpr → Build LoweredExpr
  | .int id value => do
    let ty ← exprTy B (.int id value)
    valueOf (signedLiteral B ty value false)
  | .float _ value => valueOf (pushValue .f64 (.const (.float value)))
  | .str _ value => valueOf (pushValue .str (.const (.str value)))
  | .char _ value => valueOf (pushValue .char (.const (.char value)))
  | .bool _ value => valueOf (pushValue .bool (.const (.bool value)))
  | .localVar _ binding => lowerLocal B binding
  | .function id _ => throw (asFirstClass B id "")
  | .caseRef id variant case =>
    lowerVariantConstruct B variant case id [] [] (exprTy B (.caseRef id variant case))
  | .protocolMethodRef id _ _ => throw (asFirstClass B id "protocol method ")
  | .unary _ op operand => lowerUnary B op operand (lowerExpr operand)
  | .binary _ op left right => lowerBinary B op left right (lowerExpr left) (lowerExpr right)
  | .assign _ target op value =>
    lowerAssign B target op value (lowerExpr target) (lowerExpr value)
  | .call id callee args =>
    lowerCall B (.call id callee args) callee args (lowerExpr callee) (lowerArgs args)
  | .field id base => lowerField B (.field id base) base (lowerExpr base)
  | .cast _ _ => throw (unsupported "casts (`as`)")
  | .tryExpr id operand =>
    lowerTry B id (lowerInvoke B "postfix `?`" operand (lowerExpr operand) (callParts operand) none)
  | .ifExpr id condition thenBranch elseBranch => do
    let resultTy ← exprTy B (.ifExpr id condition thenBranch elseBranch)
    lowerIf (lowerExpr condition) (scopedBlock thenBranch) (lowerElse elseBranch) resultTy
  | .matchExpr id scrutinee arms => do
    let resultTy ← exprTy B (.matchExpr id scrutinee arms)
    lowerMatchExpr B scrutinee (lowerExpr scrutinee) (armPatterns arms) (armBodies arms) resultTy
  | .block body => scopedBlock body
  | .returnExpr id none => lowerReturnVoid B id
  | .returnExpr id (some value) =>
    lowerReturnValue B id value (lowerExpr value) fun retTy =>
      lowerIntoReturnSink (finishReturn B retTy) retTy value (lowerExpr value)
  | .breakExpr id value => lowerBreak B id value.isSome
  | .continueExpr id => lowerContinue B id
  | .recordLiteral id record fields =>
    lowerRecordLiteral B record (.recordLiteral id record fields) (fieldValues fields)
      (lowerFields fields)
  | .raise id operand => lowerRaise B id operand (lowerExpr operand)
  | .handle id operand arms => do
    let resultTy ← exprTy B (.handle id operand arms)
    lowerHandle B (lowerInvoke B "`handle`" operand (lowerExpr operand) (callParts operand))
      (handleKinds arms) (handleBodies arms) resultTy
  | .error _ => valueOf (pushValue .error (.const .unit))

def lowerArgs : List HirExpr → List (Build LoweredExpr)
  | [] => []
  | arg :: rest => lowerExpr arg :: lowerArgs rest

def lowerFields : List HirFieldInit → List (Build LoweredExpr)
  | [] => []
  | .mk _ value :: rest => lowerExpr value :: lowerFields rest

/-- The parts of an operand that may be a call. -/
def callParts : HirExpr → CallParts
  | .call _ callee args => ⟨lowerExpr callee, lowerArgs args⟩
  | _ => ⟨pure .diverged, []⟩

def lowerElse : Option HirElse → Option (Build LoweredExpr)
  | none => none
  | some (.block body) => some (scopedBlock body)
  | some (.ifExpr inner) => some (lowerExpr inner)

def scopedBlock : HirBlock → Build LoweredExpr
  | .mk id statements tail =>
    lowerScopedBlock B id (lowerBlockValue (statementsOf statements) (lowerTail tail))

def lowerTail : Option HirExpr → Option (Build LoweredExpr)
  | none => none
  | some tail => some (lowerExpr tail)

def statementsOf : List HirStmt → List (Build Unit)
  | [] => []
  | stmt :: rest => lowerStmt stmt :: statementsOf rest

def scopedBlockVoid : HirBlock → Build Unit
  | .mk id statements tail =>
    lowerScopedBlockVoid B id (lowerBlockVoid (statementsOf statements) (lowerTail tail))

def lowerStmt : HirStmt → Build Unit
  | .binding binding value => lowerBinding B binding value (lowerExpr value)
  | .expr expr => do
    let _ ← lowerExpr expr
    pure ()
  | .defer expr => lowerDefer B expr (callParts expr)
  | .drop expr => lowerDrop B expr.id (lowerExpr expr)
  | .whileLoop condition body => lowerWhile (lowerExpr condition) (scopedBlockVoid body)
  | .loop body => lowerLoop (scopedBlockVoid body)
  | .observe id _ aliased body => lowerObserve B id aliased body.id (scopedBlockVoid body)

/-- The body of an arm without a cleanup of its own: the arm's covers it. -/
def armBody : HirMatchArmBody → Build LoweredExpr
  | .expr expr => lowerExpr expr
  | .block (.mk _ statements tail) =>
    lowerBlockValue (statementsOf statements) (lowerTail tail)

def armBodies : List HirMatchArm → List (ArmSink → Build Unit)
  | [] => []
  | .mk _ body :: rest => lowerArmBody B body.id (armBody body) :: armBodies rest

def handleBodies : List HirHandleArm → List (ArmSink → Build Unit)
  | [] => []
  | .mk _ body :: rest => lowerArmBody B body.id (armBody body) :: handleBodies rest

/-- An expression whose value is returned. A leaf is lowered as it is elsewhere. -/
def lowerIntoReturnSink (finish : ValueId → Build LoweredExpr) (hint : Ty) :
    HirExpr → Build LoweredExpr → Build LoweredExpr
  | .block body, _ => blockIntoReturnSink finish hint body
  | .matchExpr _ scrutinee arms, _ =>
    lowerMatchExprIntoReturnSink B scrutinee (lowerExpr scrutinee) (armPatterns arms)
      (armsIntoReturnSink finish hint arms)
  | .handle _ operand arms, _ =>
    lowerHandleIntoReturnSink B
      (lowerInvoke B "`handle`" operand (lowerExpr operand) (callParts operand) none)
      (handleKinds arms) (handlersIntoReturnSink finish hint arms)
  | .ifExpr _ condition thenBranch elseBranch, _ =>
    lowerIfIntoReturnSink (lowerExpr condition) (blockIntoReturnSink finish hint thenBranch)
      (elseIntoReturnSink finish hint elseBranch)
  | e, lowered => lowerLeaf B finish hint e lowered

def blockIntoReturnSink (finish : ValueId → Build LoweredExpr) (hint : Ty) :
    HirBlock → Build LoweredExpr
  | .mk _ statements tail =>
    lowerIntoReturnSinkBlock finish (statementsOf statements)
      (tailIntoReturnSink finish hint tail)

def tailIntoReturnSink (finish : ValueId → Build LoweredExpr) (hint : Ty) :
    Option HirExpr → Option (Build LoweredExpr)
  | none => none
  | some tail => some (lowerIntoReturnSink finish hint tail (lowerExpr tail))

def elseIntoReturnSink (finish : ValueId → Build LoweredExpr) (hint : Ty) :
    Option HirElse → Build LoweredExpr
  | none => finishUnit finish
  | some (.block body) => blockIntoReturnSink finish hint body
  | some (.ifExpr inner) => lowerIntoReturnSink finish hint inner (lowerExpr inner)

def armsIntoReturnSink (finish : ValueId → Build LoweredExpr) (hint : Ty) :
    List HirMatchArm → List (ArmSink → Build Unit)
  | [] => []
  | .mk _ body :: rest =>
    (fun _ => lowerArmIntoReturnSink (armIntoReturnSink finish hint body)) ::
      armsIntoReturnSink finish hint rest

def handlersIntoReturnSink (finish : ValueId → Build LoweredExpr) (hint : Ty) :
    List HirHandleArm → List (ArmSink → Build Unit)
  | [] => []
  | .mk _ body :: rest =>
    (fun _ => lowerArmIntoReturnSink (armIntoReturnSink finish hint body)) ::
      handlersIntoReturnSink finish hint rest

def armIntoReturnSink (finish : ValueId → Build LoweredExpr) (hint : Ty) :
    HirMatchArmBody → Build LoweredExpr
  | .expr expr => lowerIntoReturnSink finish hint expr (lowerExpr expr)
  | .block body => blockIntoReturnSink finish hint body

end

/-! ### Functions -/

/-- What is resolved of a function apart from its body. -/
structure FunctionHead where
  name : Symbol
  typeParams : List (TypeParamId × Symbol)
  requirements : List CapabilityRequirement
  returnType : Ty
  raises : List ItemId

def lowerParam (param : HirParam) : Build Param := do
  let ty ← orFail (B.localTypes param.binding)
    ("parameter " ++ debugId "LocalId" param.binding.index ++ " has no type recorded by typeck")
  let value ← freshValue
  bindLocal param.binding (.direct value)
  pure ⟨value, ty, param.take⟩

/-- The end of a body whose value is not a resource. A body without a value has ended its
block. -/
def lowerTailReturn (retTy : Ty) (id : ExprId) (lowered : Build LoweredExpr) : Build Unit := do
  let result ← lowered
  if !(← currentTerminated) then
    match result with
    | .value value => do
      emitCheckedCleanup B id
      let _ ← finishTail B retTy value
    | .diverged => throw (internalError
        "internal invariant: a Diverged result always already terminated its block")

def lowerBody (retTy : Ty) : HirBlock → Build Unit
  | .mk id statements tail =>
    if B.isAffine retTy then do
      let _ ← blockIntoReturnSink B (finishTail B retTy) retTy (.mk id statements tail)
    else lowerTailReturn B retTy id
      (lowerBlockValue (statementsOf B statements) (lowerTail B tail))

def finishBlock (name : String) (block : PendingBlock) : Except Diagnostic BasicBlock :=
  match block.terminator with
  | some terminator => .ok ⟨block.id, block.instructions, terminator⟩
  | none => .error (internalError ("internal error lowering `" ++ name ++ "`: block bb" ++
      toString block.id.index ++ " was never given a terminator"))

def lowerParamsAndBody (head : FunctionHead) (f : HirFunction) : Build (List Param) := do
  let params ← f.params.mapM (lowerParam B)
  lowerBody B head.returnType f.body
  pure params

def lowerFunction (head : FunctionHead) (f : HirFunction) : Except Diagnostic Function := do
  let lowered ← (lowerParamsAndBody B head f).run { returnTy := head.returnType }
  let blocks ← lowered.2.blocks.mapM (finishBlock (B.interner head.name))
  pure ⟨f.id, head.name, head.typeParams, head.requirements, lowered.1, head.returnType,
    head.raises, blocks⟩

end

end Napitia.Lower

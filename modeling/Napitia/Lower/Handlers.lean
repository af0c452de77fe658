import Napitia.Lower.Branches

/-!
# Fallible calls and their handlers

A fallible call ends its block with one edge for its success and one for each variant it
may raise. `?` raises what arrives on those edges again; `handle` switches each of them on
its case and enters the block of the arm for that case, which is lowered once, where the
first case reaches it.
-/
namespace Napitia.Lower
open Nir
open Hir (ExprId HirHandleArmKind HirFailurePattern)
open Hir.Body
open Resourceck (CheckedDeferPlan LocalPlace)

/-- What a fallible call leaves to the construct around it. -/
structure Invocation where
  okTy : Ty
  okSlot : ValueId
  okTarget : BlockId
  errBlocks : List (ItemId × ValueId × BlockId)
  merge : Option (ValueId × BlockId)

/-- The lowering of a call's callee and of its arguments. -/
structure CallParts where
  callee : Build LoweredExpr
  args : List (Build LoweredExpr)

section
variable (B : BodyLowering)

/-- The slot and the block of a value that joins after the construct. -/
def openMerge : Option Ty → Build (Option (ValueId × BlockId))
  | none => pure none
  | some ty => do
    let slot ← allocSlot ty
    let after ← newBlock
    pure (some (slot, after))

/-- The slot and the block of one raised variant. -/
def openErrBlock (context : String) (variant : ItemId) : Build (ItemId × ValueId × BlockId) := do
  let _ ← orFail (B.module.findVariant variant)
    (context ++ "'s callee declares raising unknown variant id " ++ debugId "ItemId" variant.index)
  let slot ← allocSlot (.named variant)
  let block ← newBlock
  pure (variant, slot, block)

/-- The end of the block of a call whose arguments have been lowered. -/
def emitInvoke (context : String) (id : ExprId) (item : ItemId) (typeArgs : List Ty)
    (retTy : Ty) (mergeTy : Option Ty) (values : List ValueId) : Build Invocation := do
  let requirements ← lookupFunctionRequirements B item context
  let evidence ← resolveCallEvidence B id requirements context
  let raises ← lookupFunctionRaises B item context
  let merge ← openMerge mergeTy
  let okSlot ← allocSlot retTy
  let okTarget ← newBlock
  let errs ← raises.mapM (openErrBlock B context)
  terminate (.invoke item typeArgs values evidence okSlot okTarget
    (errs.map fun err => ⟨err.1, err.2.1, err.2.2⟩))
  pure ⟨retTy, okSlot, okTarget, errs, merge⟩

def lowerInvokeFunction (context : String) (id : ExprId) (item : ItemId) (args : List HirExpr)
    (lowered : List (Build LoweredExpr)) (mergeTy : Option Ty) : Build (Option Invocation) := do
  let sig ← lookupFunctionSig B item context
  let typeArgs ← resolveCallTypeArgs B id sig.typeParams context
  let subst := useSubst sig.typeParams typeArgs
  let retTy := substitute sig.returnType subst
  if sig.params.length ≠ args.length then
    throw (internalError (context ++ " calls " ++ debugId "ItemId" item.index ++ " with " ++
      toString args.length ++ " argument(s) but its own resolved signature declares " ++
      toString sig.params.length))
  match ← collectValues
      (lowerArguments B "an invoke argument" sig.params subst args lowered) with
  | none => pure none
  | some values => do
    let invocation ← emitInvoke B context id item typeArgs retTy mergeTy values
    pure (some invocation)

/-- An operand that leaves before there is a call; any other is an error. -/
def lowerNoInvoke {α : Type} (x : Build (Option α)) (message : String) :
    Build (Option Invocation) := do
  match ← x with
  | none => pure none
  | some _ => throw (internalError message)

def lowerInvoke (context : String) (operand : HirExpr) (lowered : Build LoweredExpr)
    (parts : CallParts) (mergeTy : Option Ty) : Build (Option Invocation) :=
  match operand with
  | .call id (.function _ item) args =>
    lowerInvokeFunction B context id item args parts.args mergeTy
  | .call .. => lowerNoInvoke (collectValues (parts.callee :: parts.args))
      (context ++ "'s operand does not call a named function")
  | _ => lowerNoInvoke (collectValues [lowered])
      (context ++ "'s operand is not a direct call to a fallible function")

/-! ### `?` and `raise` -/

/-- One raised variant on its way out through `?`. -/
def propagate (id : ExprId) (err : ItemId × ValueId × BlockId) : Build Unit := do
  let _ ← orFail (B.module.findVariant err.1) "postfix `?` propagates an unknown variant"
  switchTo err.2.2
  let loaded ← pushValue (.named err.1) (.load err.2.1)
  emitCheckedCleanup B id
  terminate (.raise loaded)

def lowerTry (id : ExprId) (invoke : Build (Option Invocation)) : Build LoweredExpr := do
  match ← invoke with
  | none => pure .diverged
  | some invocation => do
    invocation.errBlocks.forM (propagate B id)
    switchTo invocation.okTarget
    valueOf (pushValue invocation.okTy (.load invocation.okSlot))

def lowerRaise (id : ExprId) (operand : HirExpr) (lowered : Build LoweredExpr) :
    Build LoweredExpr :=
  onValue lowered fun value => do
    emitCheckedCleanup B id
    let ty ← exprTy B operand
    let moved ← moveIfTransferred B value ty true
    terminate (.raise moved)
    pure .diverged

/-! ### `handle` -/

def bindLocal (binding : LocalId) (bound : LocalBinding) : Build Unit :=
  modify fun fb => { fb with localBindings := fb.localBindings.insert binding bound }

/-- A value that nothing names is destroyed where it arrives. -/
def bindArmPattern (pattern : HirPattern) (value : ValueId) (ty : Ty) : Build Unit :=
  match pattern with
  | .bind _ binding => bindLocal binding (.direct value)
  | .wildcard _ => if B.isAffine ty then pushInstruction (.drop value) else pure ()
  | other => throw (internalError ("a `handle` arm's pattern other than a bare bind or " ++
      "wildcard reached lowering: " ++ B.debugPattern other))

/-- The arm that a case of a raised variant goes to: the first that names it, else the
first wildcard. -/
def handlerOf (kinds : List HirHandleArmKind) (key : ItemId × ℕ) : Option ℕ :=
  (kinds.findIdx? (·.names key)) <|> (kinds.findIdx? (·.isWildcard))

/-- An arm of a `handle` with the lowering of its body. -/
structure LoweredArm where
  kind : HirHandleArmKind
  body : Build Unit

/-- The payload of a raised case, each position under its pattern. -/
def bindPayload (loaded : ValueId) (variant : ItemId) (case : ℕ)
    (args : List HirPattern) (payload : List Ty) : Build Unit :=
  (args.zip payload).zipIdx.forM fun position => do
    let value ← pushValue position.1.2 (.variantPayload loaded variant case position.2)
    bindArmPattern B position.1.1 value position.1.2

def lowerFailureArm (loaded : ValueId) (variant : ItemId) (case : ℕ) (payload : List Ty)
    (arm : LoweredArm) : Build Unit := do
  match arm.kind with
  | .success _ => throw (internalError
      "`handle`'s failure dispatch resolved to a non-failure arm")
  | .failure .wildcard => pure ()
  | .failure (.case _ _ args) =>
    if args.length ≠ payload.length then
      throw (internalError ("failure pattern for case " ++ toString case ++
        " of a raised variant has " ++ toString args.length ++ " sub-pattern(s), expected " ++
        toString payload.length))
    else bindPayload B loaded variant case args payload
  arm.body

/-- The blocks of the arms that have been lowered. -/
abbrev ArmBlocks := List (ℕ × BlockId)

/-- The block one case goes to; the arm is lowered if no case reached it before. -/
def dispatchCase (arms : List LoweredArm) (dispatch : BlockId) (loaded : ValueId)
    (variant : ItemId) (blocks : ArmBlocks) (case : ℕ) (payload : List Ty) :
    Build (BlockId × ArmBlocks) := do
  let index ← orFail (handlerOf (arms.map (·.kind)) (variant, case))
    ("`handle` has no covering arm for case " ++ toString case ++ " of a raised variant; " ++
      "typeck should have already rejected this as non-exhaustive")
  match List.lookup index blocks with
  | some block => pure (block, blocks)
  | none => do
    let block ← newBlock
    switchTo block
    let arm ← armAt arms index
    lowerFailureArm B loaded variant case payload arm
    switchTo dispatch
    pure (block, (index, block) :: blocks)

def dispatchCases (arms : List LoweredArm) (dispatch : BlockId) (loaded : ValueId)
    (variant : ItemId) : ArmBlocks → List (List Ty × ℕ) → Build (List BlockId × ArmBlocks)
  | blocks, [] => pure ([], blocks)
  | blocks, (payload, case) :: rest => do
    let entered ← dispatchCase B arms dispatch loaded variant blocks case payload
    let others ← dispatchCases arms dispatch loaded variant entered.2 rest
    pure (entered.1 :: others.1, others.2)

def dispatchVariants (arms : List LoweredArm) :
    ArmBlocks → List (ItemId × ValueId × BlockId) → Build Unit
  | _, [] => pure ()
  | blocks, (variant, slot, dispatch) :: rest => do
    let layout ← orFail (B.module.findVariant variant) "`handle` dispatches an unknown raised variant"
    switchTo dispatch
    let loaded ← pushValue (.named variant) (.load slot)
    let targets ← dispatchCases B arms dispatch loaded variant blocks
      (layout.cases.map (·.payload)).zipIdx
    terminate (.switch loaded variant targets.1)
    dispatchVariants arms targets.2 rest

/-- The arm of the success edge, which comes last. -/
def lowerSuccessArm (arms : List LoweredArm) (invocation : Invocation) : Build Unit := do
  switchTo invocation.okTarget
  let okValue ← pushValue invocation.okTy (.load invocation.okSlot)
  let arm ← orFail (arms.find? (·.kind.isSuccess))
    "`handle` has no success arm; typeck should have already rejected this"
  match arm.kind with
  | .success pattern => bindArmPattern B pattern okValue invocation.okTy
  | .failure _ => pure ()
  arm.body

def lowerHandleDispatch (arms : List LoweredArm) (invocation : Invocation) : Build Unit := do
  dispatchVariants B arms [] invocation.errBlocks
  lowerSuccessArm B arms invocation

/-- The arms of a `handle` whose values go where the sink says. -/
def armsFor (sink : ArmSink) (kinds : List HirHandleArmKind)
    (bodies : List (ArmSink → Build Unit)) : List LoweredArm :=
  (kinds.zip bodies).map fun arm => ⟨arm.1, arm.2 sink⟩

def lowerHandle (invoke : Option Ty → Build (Option Invocation)) (kinds : List HirHandleArmKind)
    (bodies : List (ArmSink → Build Unit)) (resultTy : Ty) : Build LoweredExpr := do
  match ← invoke (if resultTy = .never then none else some resultTy) with
  | none => pure .diverged
  | some invocation =>
    match invocation.merge with
    | none => do
      lowerHandleDispatch B (armsFor .diverge kinds bodies) invocation
      pure .diverged
    | some target => do
      lowerHandleDispatch B (armsFor (.merge target.1 target.2) kinds bodies) invocation
      switchTo target.2
      valueOf (pushValue resultTy (.load target.1))

def lowerHandleIntoReturnSink (invoke : Build (Option Invocation)) (kinds : List HirHandleArmKind)
    (bodies : List (ArmSink → Build Unit)) : Build LoweredExpr := do
  match ← invoke with
  | none => pure .diverged
  | some invocation => do
    lowerHandleDispatch B (armsFor .finish kinds bodies) invocation
    pure .diverged

end

end Napitia.Lower

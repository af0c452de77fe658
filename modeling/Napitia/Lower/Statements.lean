import Napitia.Lower.Handlers

/-!
# Statements

A binding, an explicit destruction, a deferred call and an observation, around the
lowering of their parts.
-/
namespace Napitia.Lower
open Nir
open Hir (ExprId)
open Hir.Body
open Resourceck (CheckedDeferPlan LocalPlace)

section
variable (B : BodyLowering)

def isLocal : HirExpr → Bool
  | .localVar .. => true
  | _ => false

/-- How a new local stands for its initial value: in a slot if it can be assigned, else by
the value itself, which is moved out of a local that gives it up. -/
def bindingFor (binding : LocalId) (value : HirExpr) (ty : Ty) (initial : ValueId) :
    Build LocalBinding := do
  if B.isMutable binding then
    let slot ← allocSlot ty
    let transfers ← lookupConsumeMode B value.id ty "a binding initializer"
    pushInstruction (.store slot initial (if transfers then .transfer else .observe))
    pure (.slot slot)
  else if isLocal value then
    let transfers ← lookupConsumeMode B value.id ty "a binding initializer"
    if transfers then
      let moved ← pushValue ty (.move initial)
      pure (.direct moved)
    else pure (.direct initial)
  else pure (.direct initial)

def lowerBinding (binding : LocalId) (value : HirExpr) (lowered : Build LoweredExpr) :
    Build Unit := do
  let ty ← orFail (B.localTypes binding)
    ("binding " ++ debugId "LocalId" binding.index ++ " has no type recorded by typeck")
  match ← lowerExprHinted B ty value lowered with
  | .diverged => pure ()
  | .value initial => do
    let bound ← bindingFor B binding value ty initial
    bindLocal binding bound

/-- An operand that names a place is destroyed the way the checker planned it. -/
def lowerDrop (id : ExprId) (lowered : Build LoweredExpr) : Build Unit := do
  if (B.cleanupEdges id).isSome then emitCheckedCleanup B id
  else
    match ← lowered with
    | .value value => pushInstruction (.drop value)
    | .diverged => pure ()

/-! ### `defer` -/

/-- What the checker's plan and this stage must agree on before a call is deferred. -/
def checkDeferPlan (item : ItemId) (plan : CheckedDeferPlan) (sig : FunctionSig) (args : ℕ) :
    Build Unit := do
  let call := "a `defer` calling " ++ debugId "ItemId" item.index
  if plan.callee ≠ item then
    throw (internalError (call ++ " has a checked plan naming a different callee (" ++
      debugId "ItemId" plan.callee.index ++ ")"))
  if plan.argModes.length ≠ args then
    throw (internalError (call ++ " has " ++ toString plan.argModes.length ++
      " checked argument mode(s) but " ++ toString args ++ " argument(s)"))
  if plan.argTypes.length ≠ args then
    throw (internalError (call ++ " has " ++ toString plan.argTypes.length ++
      " checked argument type(s) but " ++ toString args ++ " argument(s)"))
  if plan.argPlaces.length ≠ args then
    throw (internalError (call ++ " has " ++ toString plan.argPlaces.length ++
      " checked argument place(s) but " ++ toString args ++ " argument(s)"))
  if sig.params.length ≠ args then
    throw (internalError (call ++ " declares " ++ toString sig.params.length ++
      " parameter(s) but is called with " ++ toString args ++ " argument(s)"))
  if plan.returnType ≠ sig.returnType then
    throw (internalError (call ++ " has a checked return type that disagrees with its own " ++
      "resolved signature"))

/-- What the plan says of one argument of a deferred call, and its parameter's type. -/
structure DeferArg where
  index : ℕ
  mode : Resourceck.ConsumeInfo
  ty : Ty
  place : Option LocalPlace
  hint : Ty

/-- The place this stage finds for an argument. -/
def deferPlace (hint : Ty) (arg : HirExpr) : Build (Option LocalPlace) :=
  if B.isAffine hint then resolvePlaceExpr B arg else pure none

/-- The value of an argument, captured if the call takes it. -/
def captureArgument (call : String) (planned : DeferArg) (arg : ExprId) (value : ValueId) :
    Build ValueId := do
  let transfers ← lookupConsumeMode B arg planned.hint "a defer argument"
  if decide (planned.mode = .transfer) ≠ transfers then
    throw (internalError (call ++ " has argument " ++ toString planned.index ++
      "'s own checked plan mode disagreeing with its own recorded consume site"))
  if planned.mode = .transfer ∧ B.isAffine planned.hint then
    pushValue planned.hint (.deferCapture value)
  else pure value

/-- An argument is evaluated where the call is deferred. -/
def lowerDeferArgument (item : ItemId) (planned : DeferArg) (arg : HirExpr)
    (lowered : Build LoweredExpr) : Build ValueId := do
  let call := "a `defer` calling " ++ debugId "ItemId" item.index
  if planned.ty ≠ planned.hint then
    throw (internalError (call ++ " has a checked argument type for argument " ++
      toString planned.index ++ " that disagrees with its own resolved parameter type"))
  let place ← deferPlace B planned.hint arg
  if planned.place ≠ place then
    throw (internalError (call ++ " has a checked place for argument " ++
      toString planned.index ++ " that disagrees with the place this stage resolves for it"))
  match ← lowerExprHinted B planned.hint arg lowered with
  | .diverged => throw (unsupported "a `defer` whose own argument diverges")
  | .value value => captureArgument B call planned arg.id value

/-- The plan's entries argument by argument. -/
def plannedArgs (plan : CheckedDeferPlan) (params : List Ty) : List DeferArg :=
  ((plan.argModes.zip plan.argTypes).zip (plan.argPlaces.zip params)).zipIdx.map fun entry =>
    ⟨entry.2, entry.1.1.1, entry.1.1.2, entry.1.2.1, entry.1.2.2⟩

/-- A call of a named function registered to be replayed. -/
def lowerDeferFunction (id : ExprId) (item : ItemId) (args : List HirExpr)
    (lowered : List (Build LoweredExpr)) : Build PendingDefer := do
  let sig ← lookupFunctionSig B item "a `defer` call"
  if sig.typeParams ≠ [] then throw (unsupported "a `defer` calling a generic function")
  let raises ← lookupFunctionRaises B item "a `defer` call"
  if raises ≠ [] then throw (unsupported "a `defer` calling a fallible function")
  if B.isAffine sig.returnType then
    throw (unsupported "a `defer` calling a function returning a resource")
  let plan ← orFail (B.deferPlans id) ("a `defer` calling " ++ debugId "ItemId" item.index ++
    " has no checked argument plan recorded by resourceck")
  checkDeferPlan item plan sig args.length
  let values ← ((plannedArgs plan sig.params).zip (args.zip lowered)).mapM fun arg =>
    lowerDeferArgument B item arg.1 arg.2.1 arg.2.2
  let requirements ← lookupFunctionRequirements B item "a `defer` call"
  if requirements ≠ [] then
    throw (unsupported "a `defer` calling a capability-requiring function")
  pure ⟨item, [], values, [], sig.returnType⟩

def lowerDeferCall (e : HirExpr) (parts : CallParts) : Build PendingDefer :=
  match e with
  | .call id (.function _ item) args => lowerDeferFunction B id item args parts.args
  | .call .. => throw (unsupported "a `defer` whose callee is not a plain function reference")
  | _ => throw (unsupported "a `defer` whose expression is not a direct call")

def lowerDefer (e : HirExpr) (parts : CallParts) : Build Unit := do
  let pending ← lowerDeferCall B e parts
  modify fun fb => { fb with deferCalls := (e.id, pending) :: fb.deferCalls }

/-! ### `observe` -/

/-- The place an observation is of is the one the checker recorded; its scope ends with
the body, where the body reaches its end. -/
def lowerObserve (id : ObservationId) (aliased : LocalId) (bodyId : ExprId) (body : Build Unit) :
    Build Unit := do
  let observation := "observation " ++ debugId "ObservationId" id.index
  let checked ← orFail (B.observations id)
    (observation ++ " reached lowering with no checked record from resourceck")
  if checked.lexicalScope ≠ bodyId then
    throw (internalError (observation ++ "'s checked scope disagrees with its own body block"))
  if checked.aliased ≠ aliased then
    throw (internalError (observation ++ "'s checked alias disagrees with its own statement"))
  let resolved ← resolveNirPlace B checked.source
  if resolved.2 ≠ checked.ty then
    throw (internalError (observation ++
      "'s checked type disagrees with its own resolved place type"))
  let view ← pushValue resolved.2 (.observePlace id resolved.1)
  bindLocal aliased (.direct view)
  body
  if !(← currentTerminated) then pushInstruction (.endObserve id)

end

end Napitia.Lower

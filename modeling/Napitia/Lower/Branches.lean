import Napitia.Lower.Constructs

/-!
# Constructs with blocks of their own

How branches, loops, returns, fallible calls, handlers and statements are lowered around
their parts. A part that is lowered in a block of its own finds the builder turned to
that block.
-/
namespace Napitia.Lower
open Nir
open Hir (ExprId HirHandleArmKind HirFailurePattern)
open Hir.Body
open Resourceck (CheckedDeferPlan LocalPlace)

section
variable (B : BodyLowering)

/-! ### Blocks -/

/-- The statements of a block one after the other, up to one that ends the block. Whether
the end of the block is reached is returned. -/
def lowerStmts : List (Build Unit) → Build Bool
  | [] => pure true
  | stmt :: rest => do
    stmt
    if ← currentTerminated then pure false else lowerStmts rest

def lowerBlockVoid (statements : List (Build Unit)) (tail : Option (Build LoweredExpr)) :
    Build Unit := do
  if ← lowerStmts statements then
    match tail with
    | some tail => do
      let _ ← tail
      pure ()
    | none => pure ()

def lowerBlockValue (statements : List (Build Unit)) (tail : Option (Build LoweredExpr)) :
    Build LoweredExpr := do
  if ← lowerStmts statements then tail.getD (valueOf unitValue) else pure .diverged

/-- Where the end of a block is reached, what it declared is destroyed. -/
def cleanupIfOpen (id : ExprId) : Build Unit := do
  if !(← currentTerminated) then emitCheckedCleanup B id

def lowerScopedBlock (id : ExprId) (lowered : Build LoweredExpr) : Build LoweredExpr := do
  let result ← lowered
  cleanupIfOpen B id
  pure result

def lowerScopedBlockVoid (id : ExprId) (lowered : Build Unit) : Build Unit := do
  lowered
  cleanupIfOpen B id

/-! ### `if` -/

/-- An `if` both of whose branches leave. -/
def lowerNeverIf (cond : ValueId) (thenBlock elseBlock : BlockId) (thenBranch : Build LoweredExpr)
    (elseBranch : Option (Build LoweredExpr)) : Build LoweredExpr := do
  terminate (.condBranch cond thenBlock elseBlock)
  switchTo thenBlock
  let _ ← thenBranch
  switchTo elseBlock
  let _ ← elseBranch.getD (throw (internalError ("an else-less `if` was typed as `never`, " ++
    "which requires a diverging else branch that does not exist")))
  pure .diverged

/-- Without an `else`, the value of the branch is discarded for a unit. -/
def joinThen (slot : ValueId) (after : BlockId) (hasElse : Bool) (thenBranch : Build LoweredExpr) :
    Build Unit := do
  match ← thenBranch with
  | .value value =>
    if hasElse then storeInto slot value after
    else do
      let unit ← unitValue
      storeInto slot unit after
  | .diverged => pure ()

def lowerIf (condition thenBranch : Build LoweredExpr) (elseBranch : Option (Build LoweredExpr))
    (resultTy : Ty) : Build LoweredExpr :=
  onValue condition fun cond => do
    let thenBlock ← newBlock
    let elseBlock ← newBlock
    if resultTy = .never then lowerNeverIf cond thenBlock elseBlock thenBranch elseBranch
    else do
      let slot ← allocSlot resultTy
      let after ← newBlock
      terminate (.condBranch cond thenBlock elseBlock)
      switchTo thenBlock
      joinThen slot after elseBranch.isSome thenBranch
      switchTo elseBlock
      joinInto slot after (elseBranch.getD (valueOf unitValue))
      switchTo after
      valueOf (pushValue resultTy (.load slot))

/-! ### Loops -/

/-- The body of a loop, at its own block. -/
def lowerLoopBody (ctx : LoopCtx) (body : Build Unit) : Build Unit := do
  modify fun fb => { fb with loopStack := ctx :: fb.loopStack }
  body
  modify fun fb => { fb with loopStack := fb.loopStack.tail }
  if !(← currentTerminated) then terminate (.branch ctx.continueTarget)

/-- The blocks after the condition are opened once it has a value. -/
def lowerWhile (condition : Build LoweredExpr) (body : Build Unit) : Build Unit := do
  let header ← newBlock
  terminate (.branch header)
  switchTo header
  match ← condition with
  | .diverged => pure ()
  | .value cond => do
    let loopBody ← newBlock
    let after ← newBlock
    terminate (.condBranch cond loopBody after)
    switchTo loopBody
    lowerLoopBody ⟨after, header⟩ body
    switchTo after

def lowerLoop (body : Build Unit) : Build Unit := do
  let header ← newBlock
  let after ← newBlock
  terminate (.branch header)
  switchTo header
  lowerLoopBody ⟨after, header⟩ body
  switchTo after

/-- A jump out of the innermost loop, or back to its start. -/
def lowerJump (id : ExprId) (feature : String) (target : LoopCtx → BlockId) : Build LoweredExpr := do
  match (← get).loopStack with
  | [] => throw (unsupported feature)
  | ctx :: _ => do
    emitCheckedCleanup B id
    terminate (.branch (target ctx))
    pure .diverged

def lowerBreak (id : ExprId) (hasValue : Bool) : Build LoweredExpr :=
  if hasValue then throw (unsupported "`break` with a value (loop-as-expression)")
  else lowerJump B id "`break` outside a loop" (·.breakTarget)

def lowerContinue (id : ExprId) : Build LoweredExpr :=
  lowerJump B id "`continue` outside a loop" (·.continueTarget)

/-! ### Returns -/

/-- What becomes of a returned value. -/
def finishReturn (retTy : Ty) (value : ValueId) : Build LoweredExpr := do
  let moved ← moveIfTransferred B value retTy true
  terminate (.ret (some moved))
  pure .diverged

/-- The end of a body is returned as a value only where there is one. -/
def finishTail (retTy : Ty) (value : ValueId) : Build LoweredExpr :=
  if retTy = .unit then do
    terminate (.ret none)
    pure .diverged
  else finishReturn B retTy value

/-- One leaf of a returned value, with the cleanup recorded for that leaf. -/
def lowerLeaf (finish : ValueId → Build LoweredExpr) (hint : Ty) (e : HirExpr)
    (lowered : Build LoweredExpr) : Build LoweredExpr :=
  onValue (lowerExprHinted B hint e lowered) fun value => do
    emitCheckedCleanup B e.id
    finish value

/-- A branch that has no value of its own finishes with a unit, and without a cleanup. -/
def finishUnit (finish : ValueId → Build LoweredExpr) : Build LoweredExpr := do
  let unit ← unitValue
  finish unit

def lowerIfIntoReturnSink (condition thenBranch elseBranch : Build LoweredExpr) :
    Build LoweredExpr :=
  onValue condition fun cond => do
    let thenBlock ← newBlock
    let elseBlock ← newBlock
    terminate (.condBranch cond thenBlock elseBlock)
    switchTo thenBlock
    let _ ← thenBranch
    switchTo elseBlock
    let _ ← elseBranch
    pure .diverged

def lowerIntoReturnSinkBlock (finish : ValueId → Build LoweredExpr)
    (statements : List (Build Unit)) (tail : Option (Build LoweredExpr)) : Build LoweredExpr := do
  if ← lowerStmts statements then tail.getD (finishUnit finish) else pure .diverged

def lowerReturnVoid (id : ExprId) : Build LoweredExpr := do
  emitCheckedCleanup B id
  terminate (.ret none)
  pure .diverged

/-- A resource is handed to the return on each leaf on its own; any other value is
returned after it was merged. -/
def lowerReturnValue (id : ExprId) (value : HirExpr) (lowered : Build LoweredExpr)
    (intoSink : Ty → Build LoweredExpr) : Build LoweredExpr := do
  let retTy := (← get).returnTy
  if B.isAffine retTy then intoSink retTy
  else
    onValue (lowerExprHinted B retTy value lowered) fun returned => do
      emitCheckedCleanup B id
      finishReturn B retTy returned

/-! ### Arms -/

def ArmSink.merged : ArmSink → Option (ValueId × BlockId)
  | .merge slot after => some (slot, after)
  | .finish | .diverge => none

/-- The body of an arm whose value joins after the construct. -/
def lowerArmBody (id : ExprId) (lowered : Build LoweredExpr) (sink : ArmSink) : Build Unit := do
  match ← lowered with
  | .diverged => pure ()
  | .value value =>
    match sink.merged with
    | none => pure ()
    | some target => do
      emitCheckedCleanup B id
      storeInto target.1 value target.2

/-- The body of an arm that hands its value to the return by itself. -/
def lowerArmIntoReturnSink (lowered : Build LoweredExpr) : Build Unit := do
  let _ ← lowered
  pure ()

/-- The arm of an index. -/
def armAt {α : Type} (arms : List α) (index : ℕ) : Build α :=
  orFail arms[index]? "an arm index is out of range"

/-- The decision over the arms of a `match` hands each leaf to the lowering of its arm. -/
def lowerArmOf (bodies : List (ArmSink → Build Unit)) (sink : ArmSink) (index : ℕ) :
    Build Unit := do
  let body ← armAt bodies index
  body sink

def lowerMatchExpr (scrutinee : HirExpr) (lowered : Build LoweredExpr) (patterns : List HirPattern)
    (bodies : List (ArmSink → Build Unit)) (resultTy : Ty) : Build LoweredExpr :=
  onValue lowered fun value => do
    let scrutineeTy ← exprTy B scrutinee
    lowerMatch B.toLowering (lowerArmOf bodies) ⟨value, scrutineeTy⟩ patterns resultTy

def lowerMatchExprIntoReturnSink (scrutinee : HirExpr) (lowered : Build LoweredExpr)
    (patterns : List HirPattern) (bodies : List (ArmSink → Build Unit)) : Build LoweredExpr :=
  onValue lowered fun value => do
    let scrutineeTy ← exprTy B scrutinee
    lowerMatchIntoReturnSink B.toLowering (lowerArmOf bodies) ⟨value, scrutineeTy⟩ patterns

end

end Napitia.Lower

import Napitia.Resourceck.Uses

/-!
# The walk of the ownership checker

One function body is walked in the order it is evaluated. Every exit records what is
still to be destroyed or run there, every branch starts from the state its construct was
entered in, and what the branches come to is joined after it. The parts of the walk that
recur to the body of the function take what they wrap as a computation.
-/
namespace Napitia.Resourceck
open Nir Lower
open Hir (ExprId HirHandleArmKind HirFailurePattern)
open Hir.Body

namespace Codes

def unsupportedCompoundResourceOrigin : String := "U0008"
def resourceTemporaryLeak : String := "U0011"
def malformedDeferCalleeSignature : String := "U0012"
def malformedCalleeTakeFlags : String := "U0013"
def mixedObserveTakeAlias : String := "U0015"

end Codes

/-! ### Patterns -/

mutual

def patternLocals : HirPattern → List LocalId
  | .bind _ binding => [binding]
  | .variant _ args => patternLocalsAll args
  | _ => []

def patternLocalsAll : List HirPattern → List LocalId
  | [] => []
  | pattern :: rest => patternLocals pattern ++ patternLocalsAll rest

end

/-- The locals the arm of a `handle` binds. -/
def handleLocals : HirHandleArmKind → List LocalId
  | .success pattern => patternLocals pattern
  | .failure (.case _ _ args) => patternLocalsAll args
  | .failure .wildcard => []

/-! ### Exits -/

section
variable (C : FlowContext)

/-- What is to be destroyed and run, the latest first, of all that was registered past the
marker. -/
def snapshotCleanup (s : FlowState) (marker : ℕ) : List CleanupAction :=
  (s.pendingCleanup.take (s.pendingCleanup.length - marker)).flatMap fun action =>
    match action with
    | .drop place => (C.structuralDropTargets s.states place).map .drop
    | .defer id => [.defer id]

def recordExit (id : ExprId) (marker : ℕ) : FlowM Unit := do
  let s ← get
  recordCleanup id (snapshotCleanup C s marker)

def recordObservationExit (exit : ExprId) (marker : ℕ) : FlowM Unit := do
  let s ← get
  if marker < s.observations.length then
    let ends := (s.observations.take (s.observations.length - marker)).map fun active =>
      (⟨active.id, exit⟩ : ObservationExit)
    set { s with observationExits := (exit, ends) :: s.observationExits }

def truncateCleanup (marker : ℕ) : FlowM Unit :=
  modify fun s =>
    { s with pendingCleanup := s.pendingCleanup.drop (s.pendingCleanup.length - marker) }

/-- The places a scope protected until its deferred calls ran. -/
def releaseScope (states : PlaceStates) (scope : List LocalPlace) : PlaceStates :=
  scope.foldl
    (fun states place =>
      if states.lookup place = some .dropScheduled then states.insert place .available else states)
    states

def releasedSnapshot (s : FlowState) (fromScope : ℕ) : PlaceStates :=
  (s.deferScopes.take (s.deferScopes.length - fromScope)).foldl releaseScope s.states

/-- A scope of its own for the calls deferred in it. -/
def deferScope {α : Type} (inner : FlowM α) : FlowM α := do
  modify fun s => { s with deferScopes := [] :: s.deferScopes }
  let result ← inner
  modify fun s =>
    { s with deferScopes := s.deferScopes.tail
             states := releaseScope s.states (s.deferScopes.headD []) }
  pure result

/-- A block with its own end: what it registered is done with there. -/
def blockCtx (id : ExprId) (inner : FlowM Unit) : FlowM Unit := do
  let marker := (← get).pendingCleanup.length
  deferScope inner
  whenever (!C.diverges id) (recordExit C id marker)
  truncateCleanup marker

/-- Expressions whose exits are recorded inside them, or on their own account. -/
def isCompound : HirExpr → Bool
  | .block _ | .ifExpr .. | .matchExpr .. | .handle .. | .returnExpr .. | .raise .. | .tryExpr ..
  | .breakExpr .. | .continueExpr .. => true
  | _ => false

/-- An expression in returned position is an exit of the function. -/
def exprCtx (expr : HirExpr) (kind : ConsumeKind) (inner : FlowM Unit) : FlowM Unit := do
  inner
  whenever (kind = .returned && !isCompound expr && !C.diverges expr.id) (recordExit C expr.id 0)

/-! ### Temporaries -/

mutual

/-- A temporary that owns a resource nothing would ever destroy. -/
def rejectLeakedTemporary : HirExpr → FlowM Unit
  | .call id _ _ | .recordLiteral id _ _ =>
    if C.isAffineExpr id then diagnose Codes.resourceTemporaryLeak else pure ()
  | .block block => rejectLeakedTail block
  | .ifExpr _ _ thenBranch elseBranch => do
    rejectLeakedTail thenBranch
    match elseBranch with
    | some (.block block) => rejectLeakedTail block
    | some (.ifExpr inner) => if C.diverges inner.id then pure () else rejectLeakedTemporary inner
    | none => pure ()
  | .matchExpr _ _ arms => rejectLeakedMatchArms arms
  | .handle _ _ arms => rejectLeakedHandleArms arms
  | _ => pure ()

def rejectLeakedTail : HirBlock → FlowM Unit
  | .mk _ _ (some tail) => if C.diverges tail.id then pure () else rejectLeakedTemporary tail
  | .mk _ _ none => pure ()

def rejectLeakedArmBody : HirMatchArmBody → FlowM Unit
  | .expr expr => if C.diverges expr.id then pure () else rejectLeakedTemporary expr
  | .block block => rejectLeakedTail block

def rejectLeakedMatchArms : List HirMatchArm → FlowM Unit
  | [] => pure ()
  | .mk _ body :: rest => do
    rejectLeakedArmBody body
    rejectLeakedMatchArms rest

def rejectLeakedHandleArms : List HirHandleArm → FlowM Unit
  | [] => pure ()
  | .mk _ body :: rest => do
    rejectLeakedArmBody body
    rejectLeakedHandleArms rest

end

/-! ### Arguments of one call that name the same resource -/

mutual

/-- The places an affine argument may name, as far down as the depth that remains; false
where ownership cannot be followed. -/
def collectArgumentPlaces : HirExpr → ℕ → StateM (List LocalPlace) Bool
  | _, 0 => pure false
  | expr, n + 1 =>
    if !C.isAffineExpr expr.id then pure true
    else
      match expr with
      | .localVar _ binding => do
        modify (· ++ [ofRoot binding])
        pure true
      | .field id base =>
        match C.resolvePlace (.field id base) with
        | some place => do
          modify (· ++ [place])
          pure true
        | none => collectArgumentPlaces base n
      | .ifExpr _ _ thenBranch elseBranch => do
        let ok ← collectBlockPlaces thenBranch n
        let ok' ←
          match elseBranch with
          | some (.block block) => collectBlockPlaces block n
          | some (.ifExpr nested) => collectArgumentPlaces nested n
          | none => pure true
        pure (ok && ok')
      | .matchExpr _ _ arms => collectMatchArmPlaces arms n
      | .handle _ operand arms => do
        let ok ← collectArgumentPlaces operand n
        let ok' ← collectHandleArmPlaces arms n
        pure (ok && ok')
      | .block block => collectBlockPlaces block n
      | .recordLiteral .. | .call .. => pure true
      | _ => pure false

def collectBlockPlaces : HirBlock → ℕ → StateM (List LocalPlace) Bool
  | .mk _ _ (some tail), n => collectArgumentPlaces tail n
  | .mk _ _ none, _ => pure true

def collectArmPlaces : HirMatchArmBody → ℕ → StateM (List LocalPlace) Bool
  | .expr expr, n => collectArgumentPlaces expr n
  | .block block, n => collectBlockPlaces block n

def collectMatchArmPlaces : List HirMatchArm → ℕ → StateM (List LocalPlace) Bool
  | [], _ => pure true
  | .mk _ body :: rest, n => do
    let ok ← collectArmPlaces body n
    let ok' ← collectMatchArmPlaces rest n
    pure (ok && ok')

def collectHandleArmPlaces : List HirHandleArm → ℕ → StateM (List LocalPlace) Bool
  | [], _ => pure true
  | .mk _ body :: rest, n => do
    let ok ← collectArmPlaces body n
    let ok' ← collectHandleArmPlaces rest n
    pure (ok && ok')

end

def takeFlagsForCallee : HirExpr → Option (List Bool)
  | .function _ item => C.takeFlags item
  | _ => none

def isVariantConstruct : HirExpr → Bool
  | .caseRef .. => true
  | _ => false

/-- Whether the callee takes ownership of this argument. -/
def takes (callee : HirExpr) (index : ℕ) : Bool :=
  isVariantConstruct callee || ((takeFlagsForCallee C callee).bind (·[index]?)).getD false

def rejectMixedObserveTakeAliases (callee : HirExpr) (args : List HirExpr) : FlowM Unit :=
  let affine := args.zipIdx.filter fun arg => C.isAffineExpr arg.1.id
  let collected := affine.map fun arg =>
    (takes C callee arg.2, (collectArgumentPlaces C arg.1 Limits.maxGenericDepth).run [])
  let unfollowed := collected.filter fun arg => !arg.2.1
  let followed := collected.filter fun arg => arg.2.1
  let taken := (followed.filter (·.1)).flatMap (·.2.2)
  let observed := (followed.filter (!·.1)).flatMap (·.2.2)
  if unfollowed ≠ [] ∧ (observed ≠ [] ∨ taken ≠ [] ∨ unfollowed.length > 1) then
    diagnose Codes.mixedObserveTakeAlias
  else if taken.any fun place => observed.any (placesOverlap place) then
    diagnose Codes.mixedObserveTakeAlias
  else pure ()

/-- A resolved callee whose signature is missing or does not fit the call. -/
def malformedCallee (callee : HirExpr) (args : List HirExpr) : Bool :=
  match callee with
  | .function _ item => (C.takeFlags item).map List.length ≠ some args.length
  | _ => false

/-! ### Deferred calls -/

def pushPlace (out : List LocalPlace) (place : LocalPlace) : List LocalPlace :=
  if place ∈ out then out else out ++ [place]

mutual

/-- The places an expression names, each once, in the order of the source. -/
def collectObservedPlaces (out : List LocalPlace) : HirExpr → List LocalPlace
  | .localVar _ binding => pushPlace out (ofRoot binding)
  | .unary _ _ operand | .cast _ operand | .tryExpr _ operand | .raise _ operand =>
    collectObservedPlaces out operand
  | .binary _ _ left right => collectObservedPlaces (collectObservedPlaces out left) right
  | .assign _ target _ value => collectObservedPlaces (collectObservedPlaces out target) value
  | .call _ callee args => collectObservedArgs (collectObservedPlaces out callee) args
  | .field id base =>
    if C.isAffineExpr id then
      match C.resolvePlace (.field id base) with
      | some place => pushPlace out place
      | none => collectObservedPlaces out base
    else collectObservedPlaces out base
  | .ifExpr _ condition thenBranch elseBranch =>
    let out := collectObservedBlock (collectObservedPlaces out condition) thenBranch
    match elseBranch with
    | some (.block block) => collectObservedBlock out block
    | some (.ifExpr inner) => collectObservedPlaces out inner
    | none => out
  | .matchExpr _ scrutinee arms => collectObservedMatchArms (collectObservedPlaces out scrutinee) arms
  | .block block => collectObservedBlock out block
  | .returnExpr _ value | .breakExpr _ value =>
    match value with
    | some value => collectObservedPlaces out value
    | none => out
  | .recordLiteral _ _ fields => collectObservedFields out fields
  | .handle _ operand arms => collectObservedHandleArms (collectObservedPlaces out operand) arms
  | _ => out

def collectObservedArgs (out : List LocalPlace) : List HirExpr → List LocalPlace
  | [] => out
  | arg :: rest => collectObservedArgs (collectObservedPlaces out arg) rest

def collectObservedFields (out : List LocalPlace) : List HirFieldInit → List LocalPlace
  | [] => out
  | .mk _ value :: rest => collectObservedFields (collectObservedPlaces out value) rest

def collectObservedArmBody (out : List LocalPlace) : HirMatchArmBody → List LocalPlace
  | .expr expr => collectObservedPlaces out expr
  | .block block => collectObservedBlock out block

def collectObservedMatchArms (out : List LocalPlace) : List HirMatchArm → List LocalPlace
  | [] => out
  | .mk _ body :: rest => collectObservedMatchArms (collectObservedArmBody out body) rest

def collectObservedHandleArms (out : List LocalPlace) : List HirHandleArm → List LocalPlace
  | [] => out
  | .mk _ body :: rest => collectObservedHandleArms (collectObservedArmBody out body) rest

def collectObservedBlock (out : List LocalPlace) : HirBlock → List LocalPlace
  | .mk _ statements tail =>
    let out := collectObservedStmts out statements
    match tail with
    | some tail => collectObservedPlaces out tail
    | none => out

def collectObservedStmts (out : List LocalPlace) : List HirStmt → List LocalPlace
  | [] => out
  | stmt :: rest => collectObservedStmts (collectObservedStmt out stmt) rest

def collectObservedStmt (out : List LocalPlace) : HirStmt → List LocalPlace
  | .binding _ value => collectObservedPlaces out value
  | .expr expr | .defer expr | .drop expr => collectObservedPlaces out expr
  | .whileLoop condition body => collectObservedBlock (collectObservedPlaces out condition) body
  | .loop body => collectObservedBlock out body
  | .observe _ source _ body => collectObservedBlock (collectObservedPlaces out source) body

end

def observedPlaces (expr : HirExpr) : List LocalPlace := collectObservedPlaces C [] expr

/-- The plan of a deferred call to a known function. -/
def deferPlan (item : ItemId) (flags : List Bool) (id : ExprId) (args : List HirExpr)
    (registrationOrder : ℕ) : Option CheckedDeferPlan := do
  let returnType ← C.exprTypes id
  let argTypes ← args.mapM fun arg => C.exprTypes arg.id
  some
    { callee := item
      argModes := flags.map fun takes => if takes then .transfer else .observe
      argTypes
      argPlaces := args.map fun arg => if C.isAffineExpr arg.id then C.resolvePlace arg else none
      returnType
      registrationOrder }

def registerDefer (expr : HirExpr) : FlowM Unit :=
  match expr with
  | .call id (.function _ item) args =>
    match C.takeFlags item with
    | none => pure ()
    | some flags =>
      if flags.length ≠ args.length then diagnose Codes.malformedDeferCalleeSignature
      else do
        let s ← get
        match deferPlan C item flags id args s.nextDeferRegistration with
        | none => pure ()
        | some plan =>
          set { s with deferPlans := (id, plan) :: s.deferPlans
                       nextDeferRegistration := s.nextDeferRegistration + 1 }
  | _ => pure ()

/-- An available place a deferred call needs is protected until its scope ends. -/
def protectPlace (place : LocalPlace) : FlowM Unit := do
  let s ← get
  if placeState s.states place = .available then
    set { s with states := s.states.insert place .dropScheduled
                 deferScopes := s.deferScopes.modifyHead fun scope => place :: scope }

/-- What a `defer` does once its expression is checked. -/
def afterDefer (expr : HirExpr) : FlowM Unit := do
  let captured := observedPlaces C expr
  let s ← get
  if captured.any fun place => (s.observationAliases.lookup place.root).isSome then
    diagnose Codes.observationAliasEscapes
  else
    registerDefer C expr
    pushCleanup (.defer expr.id)
    captured.forM protectPlace

/-! ### Bindings, branches and loops -/

/-- A resource local comes into being, and is to be destroyed with its scope. -/
def bindLocal (binding : LocalId) : FlowM Unit := do
  whenever (C.isResourceLocal binding) do
    insertState (ofRoot binding) .available
    pushCleanup (.drop (ofRoot binding))

def removeLocal (binding : LocalId) : FlowM Unit :=
  modify fun s => { s with states := s.states.erase (ofRoot binding) }

def swapStates (states : PlaceStates) : FlowM PlaceStates := do
  let s ← get
  set { s with states }
  pure s.states

/-- A resource of a compound expression is not moved as a whole; it is read instead. -/
def checkCompoundOrigin (id : ExprId) (kind : ConsumeKind) : FlowM ConsumeKind :=
  if kind = .other && C.isAffineExpr id then do
    diagnose Codes.unsupportedCompoundResourceOrigin
    pure .read
  else pure kind

def isError (states : PlaceStates) : Bool := states.entries.any fun entry => entry.2 = .error

/-- What the branches come to after their construct. -/
def finishBranches (kind : ConsumeKind) (entry : PlaceStates)
    (branches : List (PlaceStates × Bool)) : FlowM Unit := do
  let joined := joinBranchStates entry branches
  modify fun s => { s with states := joined }
  if kind ≠ .returned ∧ isError joined ∧ !isError entry then
    diagnose Codes.inconsistentBranchState

/-- One arm, from the state of its construct, with what its pattern binds. -/
def armCtx (entry : PlaceStates) (locals : List LocalId) (inner : FlowM (ExprId × Bool × Bool)) :
    FlowM (PlaceStates × Bool) := do
  let _ ← swapStates entry
  let marker := (← get).pendingCleanup.length
  locals.forM (bindLocal C)
  let (bodyId, diverges, returnLeafRecorded) ← inner
  whenever (!diverges && !returnLeafRecorded) (recordExit C bodyId marker)
  truncateCleanup marker
  locals.forM removeLocal
  pure ((← get).states, diverges)

def pushLoop : FlowM PlaceStates := do
  let s ← get
  set { s with loopStack :=
    { cleanupMarker := s.pendingCleanup.length
      observationMarker := s.observations.length
      deferScopeMarker := s.deferScopes.length } :: s.loopStack }
  pure s.states

/-- Leaves the innermost loop, for the state after it. -/
def popLoop (entry : PlaceStates) (afterBase : Option PlaceStates) (bodyId : ExprId)
    (isLoop : Bool) : FlowM Unit := do
  let fallthrough ← swapStates entry
  let s ← get
  match s.loopStack with
  | [] => pure ()
  | frame :: rest =>
    let after := finishLoop entry afterBase frame (!C.diverges bodyId) fallthrough
    set { s with loopStack := rest
                 divergingLoops :=
                   if isLoop && frame.breakStates.isEmpty then bodyId :: s.divergingLoops
                   else s.divergingLoops
                 states := after.1
                 diagnostics := s.diagnostics ++ after.2 }

/-- A `break` or a `continue` leaves the innermost loop by one of its edges. -/
def leaveLoop (id : ExprId) (onFrame : PlaceStates → LoopFrame → LoopFrame) : FlowM Unit := do
  match (← get).loopStack with
  | [] => pure ()
  | frame :: _ => do
    recordObservationExit id frame.observationMarker
    recordExit C id frame.cleanupMarker
    modify fun s =>
      { s with loopStack := s.loopStack.modifyHead
                 (onFrame (releasedSnapshot s frame.deferScopeMarker)) }

/-! ### Observations -/

def beginObservation (id : ObservationId) (place : LocalPlace) (aliased : LocalId) (ty : Ty)
    (lexicalScope : ExprId) : FlowM Unit :=
  modify fun s =>
    { s with checkedObservations := (id, ⟨id, place, aliased, ty, lexicalScope⟩) ::
               s.checkedObservations
             observationAliases := (aliased, id) :: s.observationAliases
             observations := ⟨id, place, aliased⟩ :: s.observations }

def endObservation : FlowM Unit :=
  modify fun s => { s with observations := s.observations.tail }

/-- The body of an `observe`, with its own end. -/
def observationBody (body : HirBlock) (inner : FlowM Unit) : FlowM Unit := do
  blockCtx C body.id inner
  rejectLeakedTail C body

/-- An `observe` whose source is the place given. -/
def observePlace (id : ObservationId) (place : LocalPlace) (aliased : LocalId)
    (lexicalScope : ExprId) (body : FlowM Unit) : FlowM Unit := do
  checkPlaceRead place
  match C.placeTy place with
  | none => body
  | some ty =>
    match C.placeStatus (← get) place with
    | .available | .dropScheduled | .observed _ => do
      beginObservation id place aliased ty lexicalScope
      body
      endObservation
    | .partiallyMoved => do
      diagnose Codes.partialParentUsedAsWhole
      body
    | .moved | .dropped | .error => body

/-! ### The walk -/

/-- The place an assignment gives a new owner to. -/
def ownedTarget : HirExpr → Option LocalPlace
  | .localVar _ binding => if C.isResourceLocal binding then some (ofRoot binding) else none
  | .field id base => if C.isAffineExpr id then C.resolvePlace (.field id base) else none
  | _ => none

def droppedLocal : HirExpr → Option LocalId
  | .localVar _ binding => some binding
  | _ => none

def droppedField : HirExpr → Option LocalPlace
  | .field id base => if C.isAffineExpr id then C.resolvePlace (.field id base) else none
  | _ => none

mutual

def checkExprCtxInner : HirExpr → ConsumeKind → FlowM Unit
  | .int .., _ | .float .., _ | .str .., _ | .char .., _ | .bool .., _ | .function .., _
  | .caseRef .., _ | .protocolMethodRef .., _ | .error .., _ => pure ()
  | .localVar _ binding, kind => checkLocalUse C binding kind
  | .unary _ _ operand, _ => checkExprCtxInner operand .read
  | .binary _ _ left right, _ => do
    checkExprCtxInner left .read
    checkExprCtxInner right .read
  | .assign _ target _ value, _ => do
    whenever (C.isAffineExpr value.id) (recordConsume value.id .transfer)
    exprCtx C value .other (checkExprCtxInner value .other)
    match ownedTarget C target with
    | some place => checkReassignment place
    | none => checkExprCtxInner target .read
  | .call _ callee args, _ => do
    checkExprCtxInner callee .read
    if malformedCallee C callee args then diagnose Codes.malformedCalleeTakeFlags
    else
      rejectMixedObserveTakeAliases C callee args
      checkArgs callee 0 args
  | .field id base, kind =>
    match C.resolvePlace (.field id base) with
    | some place =>
      if kind ≠ .read && C.isAffineExpr id then do
        applyPlaceMove place
        recordConsume id .transfer
      else checkPlaceRead place
    | none => do
      checkExprCtxInner base .read
      rejectLeakedTemporary C base
  | .cast _ expr, _ => checkExprCtxInner expr .read
  | .tryExpr id expr, _ => do
    checkExprCtxInner expr .read
    recordObservationExit id 0
    recordExit C id 0
  | .ifExpr id condition thenBranch elseBranch, kind => do
    checkExprCtxInner condition .read
    let kind ← checkCompoundOrigin C id kind
    let entry := (← get).states
    blockCtx C thenBranch.id (checkBlockCtxInner thenBranch kind)
    let thenExit ← swapStates entry
    let elseExit ← checkElse entry kind elseBranch
    finishBranches kind entry [(thenExit, C.diverges thenBranch.id), elseExit]
  | .matchExpr id scrutinee arms, kind => do
    let scrutineeKind := if C.isAffineExpr scrutinee.id then ConsumeKind.other else .read
    exprCtx C scrutinee scrutineeKind (checkExprCtxInner scrutinee scrutineeKind)
    let kind ← checkCompoundOrigin C id kind
    let entry := (← get).states
    let branches ← checkMatchArms id entry kind arms
    finishBranches kind entry branches
  | .block block, kind => blockCtx C block.id (checkBlockCtxInner block kind)
  | .returnExpr id value, _ => do
    match value with
    | some value => exprCtx C value .returned (checkExprCtxInner value .returned)
    | none => pure ()
    recordObservationExit id 0
    recordExit C id 0
  | .breakExpr id value, _ => do
    match value with
    | some value => exprCtx C value .other (checkExprCtxInner value .other)
    | none => pure ()
    leaveLoop C id fun state frame => { frame with breakStates := frame.breakStates ++ [state] }
  | .continueExpr id, _ =>
    leaveLoop C id fun state frame =>
      { frame with continueStates := frame.continueStates ++ [state] }
  | .recordLiteral _ _ fields, _ => checkFields fields
  | .raise id operand, _ => do
    exprCtx C operand .other (checkExprCtxInner operand .other)
    recordObservationExit id 0
    recordExit C id 0
  | .handle id operand arms, kind => do
    checkExprCtxInner operand .read
    let kind ← checkCompoundOrigin C id kind
    let entry := (← get).states
    let branches ← checkHandleArms id entry kind arms
    finishBranches kind entry branches

def checkArgs (callee : HirExpr) (index : ℕ) : List HirExpr → FlowM Unit
  | [] => pure ()
  | arg :: rest => do
    let kind := if takes C callee index then ConsumeKind.other else .read
    whenever (C.isAffineExpr arg.id)
      (recordConsume arg.id (if takes C callee index then .transfer else .observe))
    exprCtx C arg kind (checkExprCtxInner arg kind)
    whenever (!takes C callee index) (rejectLeakedTemporary C arg)
    checkArgs callee (index + 1) rest

def checkFields : List HirFieldInit → FlowM Unit
  | [] => pure ()
  | .mk _ value :: rest => do
    exprCtx C value .other (checkExprCtxInner value .other)
    checkFields rest

def checkElse (entry : PlaceStates) (kind : ConsumeKind) :
    Option HirElse → FlowM (PlaceStates × Bool)
  | none => pure (entry, false)
  | some (.block block) => do
    blockCtx C block.id (checkBlockCtxInner block kind)
    let exit ← swapStates entry
    pure (exit, C.diverges block.id)
  | some (.ifExpr inner) => do
    exprCtx C inner kind (checkExprCtxInner inner kind)
    pure ((← get).states, C.diverges inner.id)

/-- The body of an arm: its id, whether it diverges, and whether the returned value was
recorded as an exit already. -/
def checkArmBody (constructId : ExprId) (kind : ConsumeKind) :
    HirMatchArmBody → FlowM (ExprId × Bool × Bool)
  | .expr expr => do
    exprCtx C expr kind (checkExprCtxInner expr kind)
    let leaf := kind = .returned && C.isAffineExpr constructId
    whenever (leaf && !C.diverges expr.id) do
      recordObservationExit expr.id 0
      recordExit C expr.id 0
    pure (expr.id, C.diverges expr.id, leaf)
  | .block block => do
    deferScope (checkBlockCtxInner block kind)
    pure (block.id, C.diverges block.id, false)

def checkMatchArms (constructId : ExprId) (entry : PlaceStates) (kind : ConsumeKind) :
    List HirMatchArm → FlowM (List (PlaceStates × Bool))
  | [] => pure []
  | .mk pattern body :: rest => do
    let branch ← armCtx C entry (patternLocals pattern) (checkArmBody constructId kind body)
    let branches ← checkMatchArms constructId entry kind rest
    pure (branch :: branches)

def checkHandleArms (constructId : ExprId) (entry : PlaceStates) (kind : ConsumeKind) :
    List HirHandleArm → FlowM (List (PlaceStates × Bool))
  | [] => pure []
  | .mk armKind body :: rest => do
    let branch ← armCtx C entry (handleLocals armKind) (checkArmBody constructId kind body)
    let branches ← checkHandleArms constructId entry kind rest
    pure (branch :: branches)

/-- The statements of a block up to one that diverges, and its tail. -/
def checkBlockCtxInner : HirBlock → ConsumeKind → FlowM Unit
  | .mk _ statements tail, kind => do
    let ended ← checkStmts statements
    if ended then
      match tail with
      | none => pure ()
      | some tail => do
        exprCtx C tail kind (checkExprCtxInner tail kind)
        whenever (kind = .returned && !C.diverges tail.id) do
          recordObservationExit tail.id 0
          recordExit C tail.id 0

/-- Whether the end of the statements is reached. -/
def checkStmts : List HirStmt → FlowM Bool
  | [] => pure true
  | stmt :: rest => do
    let diverges ← checkStmt stmt
    if diverges then pure false else checkStmts rest

/-- Whether the statement diverges. -/
def checkStmt : HirStmt → FlowM Bool
  | .binding binding value => do
    whenever (C.isAffineExpr value.id) (recordConsume value.id .transfer)
    exprCtx C value .other (checkExprCtxInner value .other)
    bindLocal C binding
    pure (C.diverges value.id)
  | .expr expr => do
    checkExprCtxInner expr .read
    rejectLeakedTemporary C expr
    pure (C.diverges expr.id)
  | .defer expr => do
    checkExprCtxInner expr .read
    afterDefer C expr
    pure false
  | .drop expr => do
    match droppedLocal expr with
    | some binding => checkLocalDrop C binding expr.id
    | none =>
      match droppedField C expr with
      | some place => checkFieldDrop C place expr.id
      | none => exprCtx C expr .other (checkExprCtxInner expr .other)
    pure false
  | .whileLoop condition body => do
    let entry ← pushLoop
    checkExprCtxInner condition .read
    let afterCondition := (← get).states
    blockCtx C body.id (checkBlockCtxInner body .read)
    popLoop C entry (some afterCondition) body.id false
    pure false
  | .loop body => do
    let entry ← pushLoop
    blockCtx C body.id (checkBlockCtxInner body .read)
    popLoop C entry none body.id true
    pure (body.id ∈ (← get).divergingLoops)
  | .observe id source aliased body => do
    match if C.isAffineExpr source.id then C.resolvePlace source else none with
    | some place =>
      observePlace C id place aliased body.id (observationBody C body (checkBlockCtxInner body .read))
    | none => do
      checkExprCtxInner source .read
      observationBody C body (checkBlockCtxInner body .read)
    pure (C.diverges body.id)

end

/-- An expression where its value goes: read, returned or given to another owner. -/
def checkExprCtx (expr : HirExpr) (kind : ConsumeKind) : FlowM Unit :=
  exprCtx C expr kind (checkExprCtxInner C expr kind)

/-- A parameter that takes ownership is the function's own to destroy; another resource
parameter is only observed. -/
def checkParam (param : HirParam) : FlowM Unit :=
  if C.isResourceLocal param.binding then
    if param.take then do
      insertState (ofRoot param.binding) .available
      pushCleanup (.drop (ofRoot param.binding))
    else modify fun s => { s with observing := param.binding :: s.observing }
  else pure ()

def checkFunction (f : HirFunction) : FlowM Unit := do
  f.params.forM (checkParam C)
  deferScope (checkBlockCtxInner C f.body .returned)
  whenever (!C.diverges f.body.id) (recordExit C f.body.id 0)

end

end Napitia.Resourceck

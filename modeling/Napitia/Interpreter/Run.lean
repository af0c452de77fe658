import Napitia.Interpreter.Ownership

/-!
# Running NIR

The instruction loop. A function whose body calls back into the interpreter
takes the call it makes as a parameter, and `callFunction` closes the recursion
with fuel: one unit for each nested call and, inside a frame, one for each block
entered. Running out of fuel is not an outcome of the program and is kept apart
from every error the interpreter can report.
-/
namespace Napitia.Interpreter
open Nir

/-- Why a run did not produce an outcome. -/
inductive Stop where
  | outOfFuel
  | failed (error : InterpreterError)
  deriving DecidableEq, Repr

abbrev Run (σ α : Type) := EStateM Stop σ α

/-- The two ways a frame ends. -/
inductive Outcome where
  | returned (value : Value)
  | raised (value : Value)
  deriving Repr

/-- An ownership operation, performed by a run. -/
def perform {σ α : Type} (x : Op σ α) : Run σ α := EStateM.adaptExcept Stop.failed x

def fail {σ α : Type} (message : String) : Run σ α := throw (.failed (invalid message))

def ask {σ α : Type} (x : Except InterpreterError α) : Run σ α := perform (liftExcept x)

/-- One call: the function entered and everything it is entered with. -/
structure CallRequest where
  function : Function
  typeArgs : List Ty
  args : List Value
  evidence : List Evidence

/-- The nested call of a body, as a parameter of everything that may make it. -/
abbrev Call := CallRequest → Run InterpreterState Outcome

section Scalars

variable (fpu : FloatUnit)

def ofArith (x : Except Numeric.ArithFailure Numeric.I64) : Except InterpreterError Value :=
  match x with
  | .ok v => pure (.int v)
  | .error f => throw (.arithmetic f)

def constValue : Const → Except InterpreterError Value
  | .int v =>
    if Numeric.i64.contains v then pure (.int (BitVec.ofInt 64 v))
    else throw (invalid ("the constant " ++ toString v ++
      " is not an i64; verification must reject it before execution"))
  | .float v => pure (.float v)
  | .bool v => pure (.bool v)
  | .char v => pure (.char v)
  | .str v => pure (.str v)
  | .unit => pure .unit

/-- A binary operator on two integers or two floats; `what` names the operation
in the refusal of any other pair. -/
def numericOp (what : String)
    (intOp : Numeric.I64 → Numeric.I64 → Except Numeric.ArithFailure Numeric.I64)
    (floatOp : F64 → F64 → F64) : Value → Value → Except InterpreterError Value
  | .int x, .int y => ofArith (intOp x y)
  | .float x, .float y => pure (.float (floatOp x y))
  | a, b => throw (invalid (what ++ " between " ++ kindName a ++ " and " ++ kindName b))

def arith := numericOp "arithmetic"

def divide := numericOp "division"

def bitop (op : Numeric.I64 → Numeric.I64 → Numeric.I64) :
    Value → Value → Except InterpreterError Value
  | .int x, .int y => pure (.int (op x y))
  | a, b => throw (invalid
      ("bitwise operator between " ++ kindName a ++ " and " ++ kindName b))

def shift (op : Numeric.I64 → Numeric.I64 → Except Numeric.ArithFailure Numeric.I64) :
    Value → Value → Except InterpreterError Value
  | .int x, .int y => ofArith (op x y)
  | a, b => throw (invalid ("shift between " ++ kindName a ++ " and " ++ kindName b))

def negate : Value → Except InterpreterError Value
  | .int x => ofArith (Numeric.neg x)
  | .float x => pure (.float x.neg)
  | other => throw (invalid ("cannot negate " ++ kindName other))

def invert : Value → Except InterpreterError Value
  | .bool x => pure (.bool !x)
  | .int x => pure (.int (~~~x))
  | other => throw (invalid ("cannot apply `not` to " ++ kindName other))

def eq : Value → Value → Except InterpreterError Bool
  | .int x, .int y => pure (x == y)
  | .float x, .float y => pure (x.eq y)
  | .bool x, .bool y => pure (x == y)
  | .char x, .char y => pure (x == y)
  | .str x, .str y => pure (x == y)
  | .unit, .unit => pure true
  | a, b => throw (invalid ("compared " ++ kindName a ++ " with " ++ kindName b))

inductive OrderPredicate where
  | lt | le | gt | ge
  deriving DecidableEq, Repr

/-- The total order of every kind of value that has one. -/
def ord : Value → Value → Except InterpreterError Ordering
  | .int x, .int y => pure (compare x.toInt y.toInt)
  | .char x, .char y => pure (compare x y)
  | .str x, .str y => pure (compare x y)
  | .bool x, .bool y => pure (compare x y)
  | a, b => throw (invalid ("ordered comparison of " ++ kindName a ++ " with " ++ kindName b))

/-- Floats answer each predicate themselves, since a NaN is unordered. -/
def ordered (a b : Value) (predicate : OrderPredicate) : Except InterpreterError Bool :=
  match a, b with
  | .float x, .float y => pure (match predicate with
      | .lt => x.lt y
      | .le => x.le y
      | .gt => y.lt x
      | .ge => y.le x)
  | a, b => do
    let ordering ← ord a b
    pure (match predicate with
      | .lt => ordering = .lt
      | .le => ordering ≠ .gt
      | .gt => ordering = .gt
      | .ge => ordering ≠ .lt)

end Scalars

/-- A static evidence entry, resolved against the running frame's own. -/
def resolveEvidence (current : List Evidence) : Evidence → Except InterpreterError Evidence
  | .extension extend nested => pure (.extension extend nested)
  | .forwarded index =>
    match current[index]? with
    | some entry => pure entry
    | none => throw (invalid "forwarded capability evidence index out of range")

def resolveTypeArgs (typeArgs : List Ty) (frameSubst : Subst) :
    Except InterpreterError (List Ty) :=
  typeArgs.mapM fun ty =>
    let resolved := substitute ty frameSubst
    if fullyResolved resolved then pure resolved
    else throw (invalid ("a type argument is still unresolved after the running frame's own " ++
      "instantiation is applied"))

/-- What a frame reads and never writes. -/
structure FrameContext where
  function : Function
  evidence : List Evidence
  subst : Subst
  observingParams : List ValueId
  loadOrigin : LoadOrigin

/-- The slot each `load` of a function reads, the last of them for a result that
several loads define. -/
def loadOriginOf (function : Function) : LoadOrigin :=
  (function.blocks.flatMap (·.instructions)).foldl (fun origin instruction =>
    match instruction with
    | .value result _ (.load slot) => origin.insert result slot
    | _ => origin) ∅

/-- The plan of a call's arguments and the identities its observing arguments
can reach. -/
structure BindingPlan where
  plan : StorePlan := {}
  observed : List ResourceId := []

section
variable (m : Module)

def bindParameter (t : ResourceTable) (subst : Subst) (param : Param) (arg : Value) :
    StateT BindingPlan (Except InterpreterError) (ValueId × Value) := do
  let declared := substitute param.ty subst
  liftM (validateArgument m t arg declared)
  let s ← get
  if param.take then
    let (bound, plan) ← liftM ((planTransfer m t arg).run s.plan)
    set { s with plan := plan }
    pure (param.value, bound)
  else
    let ((), reached) ← liftM ((collectOwnedIdentities t Limits.maxGenericDepth arg).run [])
    set { s with observed := s.observed ++ reached }
    let bound ← liftM (toObservingView t Limits.maxGenericDepth arg)
    pure (param.value, bound)

/-- Everything a call does before its frame runs its first instruction: every
boundary question, then the commit of the planned arguments. -/
def bindParameters (request : CallRequest) : Op InterpreterState (FrameContext × Values) := do
  let ⟨function, typeArgs, args, evidence⟩ := request
  if function.params.length ≠ args.length then
    throw (invalid ("function expects " ++ toString function.params.length ++
      " argument(s), found " ++ toString args.length))
  if function.requirements.length ≠ evidence.length then
    throw (invalid ("function declares " ++ toString function.requirements.length ++
      " capability requirement(s) but was given " ++ toString evidence.length ++
      " evidence entries"))
  match checkedSubstitution (function.typeParams.map (·.1)) typeArgs with
  | none => throw (invalid ("function declares " ++ toString function.typeParams.length ++
      " type parameter(s) but was instantiated with " ++ toString typeArgs.length))
  | some subst =>
    let t := (← get).resources
    let (bindings, planned) ← liftExcept (((function.params.zip args).mapM
      fun p => bindParameter m t subst p.1 p.2).run {})
    match planned.plan.reachable.find? (· ∈ planned.observed) with
    | some shared => throw (invalid ("one resource (#" ++ toString shared.index ++
        (") is passed to this call as both an observing argument and a `take` argument, so the " ++
        "callee could destroy it while the observation is still readable")))
    | none => pure ()
    if (function.findBlock ⟨0⟩).isNone then
      throw (invalid "function has no entry block (bb0)")
    modify fun s => { s with resources := s.resources.commitTransfer planned.plan }
    pure (⟨function, evidence, subst,
        (function.params.filter fun p => !p.take).map (·.value), loadOriginOf function⟩,
      bindings.foldl (fun values b => values.insert b.1 b.2) ∅)

variable (fpu : FloatUnit) (call : Call) (ctx : FrameContext)

/-- A call that must not raise; `refusal` says so when it does. -/
def callReturning (refusal : String) (request : CallRequest) : Run InterpreterState Value := do
  match ← call request with
  | .returned value => pure value
  | .raised _ => fail refusal

/-- The call a `call` instruction makes. -/
def requestCall (values : Values) (item : ItemId) (typeArgs : List Ty) (args : List ValueId)
    (callEvidence : List Evidence) : Except InterpreterError CallRequest := do
  let callTypeArgs ← resolveTypeArgs typeArgs ctx.subst
  let argValues ← args.mapM values.read
  match m.findFunction item with
  | none => throw (invalid "call to a function not present in this module")
  | some callee =>
    let resolved ← callEvidence.mapM (resolveEvidence ctx.evidence)
    pure ⟨callee, callTypeArgs, argValues, resolved⟩

/-- Every protocol argument of the extension matched against the call site's,
extending one set of bindings. -/
def matchProtocolArguments : List Ty → List Ty → Subst → Except InterpreterError Subst
  | declared :: ds, actual :: as, bindings =>
    match typePatternMatches declared actual bindings with
    | (true, bindings) => matchProtocolArguments ds as bindings
    | (false, _) => throw (invalid ("a protocol call's own type arguments do not match the " ++
        "extension selected for it"))
  | _, _, bindings => pure bindings

/-- The call a `protocol.call` instruction makes: the method its evidence
selects, instantiated at what the extension's own parameters must be. -/
def requestProtocolCall (values : Values) (arguments : List Ty) (method : ℕ)
    (evidence : Evidence) (args : List ValueId) : Except InterpreterError CallRequest := do
  let argValues ← args.mapM values.read
  match ← resolveEvidence ctx.evidence evidence with
  | .forwarded _ => throw (invalid "protocol call evidence did not resolve to a concrete extension")
  | .extension extend nested =>
    match m.findExtend extend with
    | none => throw (invalid "protocol call evidence references an unknown extend")
    | some layout =>
      match layout.methods[method]? with
      | none => throw (invalid "protocol call method index out of range for its extend")
      | some methodItem =>
        let callArguments ← resolveTypeArgs arguments ctx.subst
        if layout.protocolArguments.length ≠ callArguments.length then
          throw (invalid ("a protocol call's own type arguments do not match the arity its " ++
            "extension declares"))
        let bindings ← matchProtocolArguments layout.protocolArguments callArguments ∅
        let methodTypeArgs ← layout.typeParams.mapM fun p =>
          match bindings.lookup p.1 with
          | some ty => pure ty
          | none => throw (invalid ("an extension's own type parameter was not determined by " ++
              "the protocol arguments at this call site"))
        match m.findFunction methodItem with
        | none => throw (invalid
            "protocol call's implementing function is not present in this module")
        | some callee => pure ⟨callee, methodTypeArgs, argValues, nested⟩

/-- The fields or payload of a construction: each checked against its declared
type before any is planned, all of them planned before any moves. -/
def constructParts (values : Values) (declared : List Ty) (ids : List ValueId) :
    Op InterpreterState (List Value) := do
  let supplied ← liftExcept (ids.mapM values.read)
  let t := (← get).resources
  liftExcept ((supplied.zip declared).forM fun p =>
    (validateValueAgainstTy m t Limits.maxGenericDepth p.1 (some p.2)).run' [])
  let (rebuilt, plan) ← liftExcept ((supplied.mapM (planTransfer m t)).run {})
  modify fun s => { s with resources := s.resources.commitTransfer plan }
  pure rebuilt

def evalRecordCreate (values : Values) (item : ItemId) (typeArgs : List Ty)
    (fieldIds : List ValueId) : Op InterpreterState Value := do
  let typeArgs ← liftExcept (resolveTypeArgs typeArgs ctx.subst)
  let declared ← liftExcept (recordFieldTypes m item typeArgs)
  if declared.length ≠ fieldIds.length then
    throw (invalid "a runtime construction supplies a field count its declaration does not declare")
  let fields ← constructParts m values declared fieldIds
  if isResource m item then
    let s ← get
    let (handle, t) := s.resources.construct item fields
    set ({ s with resources := t } : InterpreterState)
    pure (.resource handle)
  else pure (.record item typeArgs fields)

def evalVariantCreate (values : Values) (variant : ItemId) (case : ℕ) (typeArgs : List Ty)
    (payload : List ValueId) : Op InterpreterState Value := do
  let typeArgs ← liftExcept (resolveTypeArgs typeArgs ctx.subst)
  let declared ← liftExcept (casePayloadTypes m variant typeArgs case)
  if declared.length ≠ payload.length then
    throw (invalid ("a runtime construction supplies a payload count its active case does not " ++
      "declare"))
  let parts ← constructParts m values declared payload
  pure (.variant variant typeArgs case parts)

/-- The stored field a selection names. -/
def selectField (t : ResourceTable) (record : ItemId) (field : ℕ) :
    Value → Except InterpreterError Value
  | .resource handle => do
    let rec' ← t.observe handle
    if rec'.item ≠ record then
      throw (invalid ("expected a resource value of the expected type, found a different " ++
        "resource"))
    match rec'.fields[field]? with
    | some value => pure value
    | none => throw (invalid "resource field index out of range")
  | .record item typeArgs fields =>
    if item = record then
      match fields[field]? with
      | some value => pure value
      | none => throw (invalid "record field index out of range")
    else throw (invalid ("expected a record value of the expected type, found " ++
      kindName (.record item typeArgs fields)))
  | other => throw (invalid ("expected a record value of the expected type, found " ++
      kindName other))

/-- Selecting a field is a read: what comes back is an observing view. -/
def readField (t : ResourceTable) (record : ItemId) (field : ℕ) (value : Value) :
    Except InterpreterError Value := do
  toObserverIfResource t (← selectField t record field value)

def evalRecordField (t : ResourceTable) (values : Values) (base : ValueId) (record : ItemId)
    (field : ℕ) : Except InterpreterError Value := do
  readField t record field (← values.read base)

def evalVariantPayload (values : Values) (base : ValueId) (variant : ItemId) (case index : ℕ) :
    Except InterpreterError Value := do
  let mismatch (value : Value) : Except InterpreterError Value :=
    throw (invalid ("expected an active variant case matching this payload projection, found " ++
      kindName value))
  match ← values.read base with
  | .variant item typeArgs activeCase payload =>
    if item = variant ∧ activeCase = case then
      match payload[index]? with
      | some value => pure value
      | none => throw (invalid "variant payload index out of range")
    else mismatch (.variant item typeArgs activeCase payload)
  | other => mismatch other

/-- The scalar operators, which read two values of the frame and nothing else. -/
def evalScalar (values : Values) : ValueKind → Option (Except InterpreterError Value)
  | .add a b => some do arith Numeric.add fpu.add (← values.read a) (← values.read b)
  | .sub a b => some do arith Numeric.sub fpu.sub (← values.read a) (← values.read b)
  | .mul a b => some do arith Numeric.mul fpu.mul (← values.read a) (← values.read b)
  | .div a b => some do divide Numeric.div fpu.div (← values.read a) (← values.read b)
  | .rem a b => some do divide Numeric.rem fpu.rem (← values.read a) (← values.read b)
  | .neg a => some do negate (← values.read a)
  | .not a => some do invert (← values.read a)
  | .and a b => some do bitop (· &&& ·) (← values.read a) (← values.read b)
  | .or a b => some do bitop (· ||| ·) (← values.read a) (← values.read b)
  | .xor a b => some do bitop (· ^^^ ·) (← values.read a) (← values.read b)
  | .shl a b => some do shift Numeric.shl (← values.read a) (← values.read b)
  | .shr a b => some do shift Numeric.shr (← values.read a) (← values.read b)
  | .eq a b => some do pure (.bool (← eq (← values.read a) (← values.read b)))
  | .ne a b => some do pure (.bool (!(← eq (← values.read a) (← values.read b))))
  | .lt a b => some do pure (.bool (← ordered (← values.read a) (← values.read b) .lt))
  | .le a b => some do pure (.bool (← ordered (← values.read a) (← values.read b) .le))
  | .gt a b => some do pure (.bool (← ordered (← values.read a) (← values.read b) .gt))
  | .ge a b => some do pure (.bool (← ordered (← values.read a) (← values.read b) .ge))
  | _ => none

/-- A table operation, performed by the interpreter outside any frame's values. -/
def onResources {α : Type} (x : Op ResourceTable α) : Op InterpreterState α :=
  EStateM.zoom InterpreterState.resources (fun t s => { s with resources := t }) x

/-- The value an instruction computes. It reads the frame's values and may write
only to the interpreter. -/
def eval (values : Values) (kind : ValueKind) : Run InterpreterState Value :=
  match evalScalar fpu values kind with
  | some result => ask result
  | none =>
    match kind with
    | .alloc => pure .unit
    | .const c => ask (constValue c)
    | .load id => ask (values.read id)
    | .move source | .deferCapture source => perform do
      onResources (transferIfResource m (← liftExcept (values.read source)))
    | .call item typeArgs args evidence => do
      callReturning call ("an ordinary call's callee raised a failure; only Invoke may call a " ++
        "fallible function") (← ask (requestCall m ctx values item typeArgs args evidence))
    | .protocolCall _ arguments method evidence args => do
      callReturning call ("a protocol call's implementing method raised a failure; protocol " ++
        "methods that raise are not yet supported")
        (← ask (requestProtocolCall m ctx values arguments method evidence args))
    | .recordCreate item typeArgs fields => perform (evalRecordCreate m ctx values item typeArgs fields)
    | .recordField base record field => do
      ask (evalRecordField (← get).resources values base record field)
    | .variantCreate variant case typeArgs payload =>
      perform (evalVariantCreate m ctx values variant case typeArgs payload)
    | .variantPayload base variant case index =>
      ask (evalVariantPayload values base variant case index)
    | .placeRead .. => fail ("ValueKind::PlaceRead must be evaluated by call_function directly, " ++
        "never through eval")
    | .observePlace .. => fail ("ValueKind::ObservePlace must be evaluated by call_function " ++
        "directly, never through eval")
    | _ => fail "a scalar operator is always evaluated above"

/-- A run of the interpreter, performed by a frame. -/
def inInterpreter {α : Type} (x : Run InterpreterState α) : Run FrameState α :=
  EStateM.zoom FrameState.interpreter (fun i s => { s with interpreter := i }) x

/-- The value of an instruction, as the kinds that reach into the frame's own
places and observations and those that do not compute it. -/
def computeValue (declared : Ty) : ValueKind → Run FrameState Value
  | .placeRead place mode => perform (accessPlace ctx.loadOrigin place mode)
  | .observePlace observation place =>
    perform (beginObserve m ctx.loadOrigin observation place declared)
  | kind => do inInterpreter (eval m fpu call ctx (← get).values kind)

/-- Nothing but a fresh slot may disagree with the type its result declares. -/
def checkComputed (result : ValueId) (declared : Ty) (kind : ValueKind) (value : Value) :
    Run FrameState Unit :=
  match kind with
  | .alloc => pure ()
  | _ => do
    if !(← ask (argumentMatchesDeclared (← get).resources value declared)) then
      fail ("%" ++ toString result.index ++ " produced a value that disagrees with its declared type")

def execValue (result : ValueId) (ty : Ty) (kind : ValueKind) : Run FrameState Unit := do
  let declared := substitute ty ctx.subst
  if (unexecutableNumericName declared).isSome then
    throw (.failed (unexecutableNumeric declared))
  let value ← computeValue m fpu call ctx declared kind
  checkComputed result declared kind value
  modify fun s => s.insert result value

/-- What a store installs and what it takes along: an observing store plans
nothing. -/
def planStore (t : ResourceTable) (incoming : Value) :
    OwnershipMode → Except InterpreterError (Option Value × StorePlan)
  | .transfer => do
    validateOwnedGraph m t incoming
    let (rebuilt, plan) ← (planTransfer m t incoming).run {}
    pure (some rebuilt, plan)
  | .observe => pure (none, {})

/-- A slot may not be overwritten while it owns what is not `retired` with the
write; `what` is the operation the refusal names. -/
def checkSlot (what : String) (t : ResourceTable) (values : Values) (retired : List ResourceId)
    (slot : ValueId) : Except InterpreterError Unit :=
  match values.lookup slot with
  | some existing =>
    if ownsLive t retired existing then
      throw (invalid (what ++ " would overwrite a slot (%" ++ toString slot.index ++
        ") that still owns an undestroyed resource"))
    else pure ()
  | none => pure ()

/-- The value a store installs, its transfer committed first. -/
def commitStore (incoming : Value) (plan : StorePlan) : Option Value → Op FrameState Value
  | some rebuilt => do
    onTable (modify (·.commitTransfer plan))
    pure rebuilt
  | none => do liftExcept (toObserverIfResource (← get).resources incoming)

/-- A store into a slot, refused while the slot still owns what the store does
not take with it. -/
def execStore (slot value : ValueId) (mode : OwnershipMode) : Op FrameState Unit := do
  let incoming ← liftExcept ((← get).values.read value)
  let (installed, retired) ← liftExcept (planStore m (← get).resources incoming mode)
  liftExcept (checkSlot "a store" (← get).resources (← get).values retired.reachable slot)
  let v ← commitStore incoming retired installed
  modify fun s => s.insert slot v

def refuseDrop (value : Value) : Op FrameState Unit :=
  throw (invalid ("drop of a non-affine value (" ++ kindName value ++ ")"))

/-- Only a resource, or an aggregate that can own one, may be dropped. -/
def dropAffine (value : Value) : Op FrameState Unit :=
  match value with
  | .resource _ => onTable (dropValue m value)
  | .record .. | .variant .. => do
    if ← liftExcept (isAffineValue m value) then onTable (dropValue m value)
    else refuseDrop value
  | other => refuseDrop other

def execDrop (value : ValueId) : Op FrameState Unit := do
  dropAffine m (← liftExcept ((← get).values.read value))
  modify fun s => { s with values := s.values.erase value }

def execInstruction : Instruction → Run FrameState Unit
  | .value result ty kind => execValue m fpu call ctx result ty kind
  | .endObserve observation => perform (endObserve observation)
  | .decomposeVariant value variant case taken =>
    perform (decomposeVariant m ctx.loadOrigin value variant case taken)
  | .store slot value mode => perform (execStore m slot value mode)
  | .drop value => perform (execDrop m value)
  | .storePlace place value => perform (storePlaceTransfer m ctx.loadOrigin place value)

/-- The exit of a frame with a value: planned, judged by the leak backstop, and
only then committed. `verb` is how the backstop words its refusal. -/
def exitTransfer (verb : String) (value : Value) : Op FrameState Value := do
  let t := (← get).resources
  let (leaving, plan) ← liftExcept ((planTransfer m t value).run {})
  match leakedResource t (← get).values ctx.observingParams plan.reachable with
  | some leaked => throw (invalid ("function " ++ verb ++
      " while still owning an undestroyed resource (%" ++ toString leaked.index ++ ")"))
  | none => pure ()
  onTable (modify (·.commitTransfer plan))
  pure leaving

def exitReturn (id : Option ValueId) : Op FrameState Value :=
  match id with
  | some id => do
    let value ← liftExcept ((← get).values.read id)
    let declared := substitute ctx.function.returnType ctx.subst
    liftExcept (validateArgument m (← get).resources value declared)
    exitTransfer m ctx "returned" value
  | none => do
    match leakedResource (← get).resources (← get).values ctx.observingParams [] with
    | some leaked => throw (invalid (
        "function returned while still owning an undestroyed resource (%" ++
        toString leaked.index ++ ")"))
    | none => pure .unit

def exitRaise (id : ValueId) : Op FrameState Value := do
  exitTransfer m ctx "raised" (← liftExcept ((← get).values.read id))

/-- Where control goes after a terminator. -/
inductive Next where
  | goto (block : BlockId)
  | exit (outcome : Outcome)

/-- The preflight of an `Invoke`: its arguments checked as the call will check
them, and everything its `take` arguments carry away. -/
def planInvoke (t : ResourceTable) (callee : Function) (typeArgs : List Ty)
    (args : List Value) : Except InterpreterError StorePlan := do
  let subst := checkedSubstitution (callee.typeParams.map (·.1)) typeArgs
  let ((), incoming) ← ((callee.params.zip args).forM fun p => (do
    match subst with
    | some subst => liftM (validateArgument m t p.2 (substitute p.1.ty subst))
    | none => pure ()
    if p.1.take then
      let _ ← planTransfer m t p.2 : Planning Unit)).run {}
  pure incoming

/-- The output slots of an `Invoke`, checked before its callee runs against the
identities its `take` arguments carry away. -/
def checkInvokeSlots (t : ResourceTable) (values : Values) (callee : Function)
    (typeArgs : List Ty) (args : List Value) (slots : List ValueId) :
    Except InterpreterError Unit := do
  let incoming ← planInvoke m t callee typeArgs args
  slots.forM (checkSlot "an invoke" t values incoming.reachable)

/-- The call an `invoke` makes, once its output slots have been checked. -/
def requestInvoke (t : ResourceTable) (values : Values) (callee : ItemId) (typeArgs : List Ty)
    (args : List ValueId) (callEvidence : List Evidence) (slots : List ValueId) :
    Except InterpreterError CallRequest := do
  let invokeTypeArgs ← resolveTypeArgs typeArgs ctx.subst
  let argValues ← args.mapM values.read
  match m.findFunction callee with
  | none => throw (invalid "invoke targets a function not present in this module")
  | some calleeFn =>
    let resolved ← callEvidence.mapM (resolveEvidence ctx.evidence)
    if calleeFn.params.length = argValues.length ∧
        calleeFn.requirements.length = resolved.length then
      checkInvokeSlots m t values calleeFn invokeTypeArgs argValues slots
    pure ⟨calleeFn, invokeTypeArgs, argValues, resolved⟩

/-- Where an invoke resumes: its success slot, or the slot of the first failure
target for the variant raised. -/
def resumeInvoke (okSlot : ValueId) (okTarget : BlockId) (errTargets : List InvokeErrTarget) :
    Outcome → Except InterpreterError (ValueId × Value × BlockId)
  | .returned value => pure (okSlot, value, okTarget)
  | .raised raised =>
    match raised with
    | .variant item _ _ _ =>
      match errTargets.find? fun target => target.variant = item with
      | none => throw (invalid "invoke has no failure target for the raised variant")
      | some target => pure (target.slot, raised, target.target)
    | _ => throw (invalid "a raised value must be a variant value")

def execInvoke (callee : ItemId) (typeArgs : List Ty) (args : List ValueId)
    (callEvidence : List Evidence) (okSlot : ValueId) (okTarget : BlockId)
    (errTargets : List InvokeErrTarget) : Run FrameState Next := do
  let request ← ask (requestInvoke m ctx (← get).resources (← get).values callee typeArgs args
    callEvidence (okSlot :: errTargets.map (·.slot)))
  let outcome ← inInterpreter (call request)
  let (slot, value, target) ← ask (resumeInvoke okSlot okTarget errTargets outcome)
  modify fun s => s.insert slot value
  pure (.goto target)

/-- A frame may not leave with an observation still open. -/
def refuseOpenObservation : Op FrameState Unit := do
  match (← get).activeLeases.getLast? with
  | some (_, lease) => throw (invalid ("function exited with observation " ++
      toString lease.index ++ " still active"))
  | none => pure ()

/-- The block a conditional branch goes to. -/
def branchTarget (thenBlock elseBlock : BlockId) : Value → Except InterpreterError BlockId
  | .bool true => pure thenBlock
  | .bool false => pure elseBlock
  | _ => throw (invalid "branch condition was not a bool")

/-- The block a switch goes to, by the active case of its scrutinee. -/
def switchTarget (variant : ItemId) (cases : List BlockId) :
    Value → Except InterpreterError BlockId
  | .variant item _ case _ =>
    if item ≠ variant then
      throw (invalid ("switch scrutinee's variant identity does not match the switch's declared " ++
        "variant"))
    else match cases[case]? with
      | some target => pure target
      | none => throw (invalid "switch scrutinee's case has no corresponding target")
  | _ => throw (invalid "switch scrutinee was not a variant value")

def execTerminator : Terminator → Run FrameState Next
  | .ret id => do
    perform refuseOpenObservation
    pure (.exit (.returned (← perform (exitReturn m ctx id))))
  | .raise id => do
    perform refuseOpenObservation
    pure (.exit (.raised (← perform (exitRaise m ctx id))))
  | .branch target => pure (.goto target)
  | .condBranch condition thenBlock elseBlock => do
    let value ← ask ((← get).values.read condition)
    pure (.goto (← ask (branchTarget thenBlock elseBlock value)))
  | .switch scrutinee variant cases => do
    let value ← ask ((← get).values.read scrutinee)
    pure (.goto (← ask (switchTarget variant cases value)))
  | .invoke callee typeArgs args evidence okSlot okTarget errTargets =>
    execInvoke m call ctx callee typeArgs args evidence okSlot okTarget errTargets

/-- One block: its instructions in order, then its terminator. -/
def execBlock (block : BasicBlock) : Run FrameState Next := do
  block.instructions.forM (execInstruction m fpu call ctx)
  execTerminator m call ctx block.terminator

/-- The block loop of a frame. -/
def runBlocks : ℕ → BlockId → Run FrameState Outcome
  | 0, _ => throw .outOfFuel
  | n + 1, id => do
    match ctx.function.findBlock id with
    | none => fail "branch to unknown block"
    | some block =>
      match ← execBlock m fpu call ctx block with
      | .goto next => runBlocks n next
      | .exit outcome => pure outcome

end

section
variable (m : Module) (fpu : FloatUnit)

/-- One frame: its parameters bound, then its blocks from `bb0`. The frame's own
values and lease stack end with it. -/
def callFunctionInFrame (fuel : ℕ) (call : Call) (request : CallRequest) :
    Run InterpreterState Outcome := do
  let (ctx, values) ← perform (bindParameters m request)
  fun s =>
    match runBlocks m fpu call ctx fuel ⟨0⟩ ⟨s, values, []⟩ with
    | .ok outcome s' => .ok outcome s'.interpreter
    | .error e s' => .error e s'.interpreter

/-- The interpreter inside one more frame. -/
def InterpreterState.enter (s : InterpreterState) : InterpreterState :=
  { s with callDepth := s.callDepth + 1 }

def InterpreterState.leave (s : InterpreterState) : InterpreterState :=
  { s with callDepth := s.callDepth - 1 }

/-- The epilogue of a frame that failed: the leases it still holds are closed and
nothing may run on this interpreter again. -/
def InterpreterState.abandon (s : InterpreterState) (mark : ℕ) : InterpreterState :=
  { s with resources := s.resources.abandonLeasesFrom mark, terminated := true }

/-- One call: a frame of the depth budget claimed and given back, and the
epilogue of a frame that failed. -/
def callFunction : ℕ → Call
  | 0 => fun _ => throw .outOfFuel
  | n + 1 => fun request => do
    if (← get).callDepth ≥ Limits.maxCallDepth then
      fail ("call depth exceeded " ++ toString Limits.maxCallDepth ++
        " frames: a recursion this execution never unwound")
    fun s =>
      match callFunctionInFrame m fpu n (callFunction n) request s.enter with
      | .ok outcome s' => .ok outcome s'.leave
      | .error e s' => .error e (s'.abandon s.resources.leaseMark).leave

def checkNotTerminated : Run InterpreterState Unit := do
  if (← get).terminated then
    fail "this execution context ended in a failed execution and cannot be reused"

def intoResult : Outcome → Except InterpreterError Value
  | .returned value => pure value
  | .raised _ => throw (invalid "an unhandled failure reached the program's entry point")

def callItem (fuel : ℕ) (item : ItemId) (args : List Value) : Run InterpreterState Value := do
  checkNotTerminated
  match m.findFunction item with
  | none => fail ("unknown function ItemId(" ++ toString item.index ++ ")")
  | some function => ask (intoResult (← callFunction m fpu fuel ⟨function, [], args, []⟩))

end

end Napitia.Interpreter

import Napitia.Resourceck.State

/-!
# What the lowering of a body reads

Every later stage of a function body reads back what the checkers decided, by the id of
the expression or the local it was decided for. A table without an entry where there has
to be one is a disagreement between two stages, and is reported as one. Spans, and how
Rust prints a type or a pattern it did not expect, are not modelled.
-/
namespace Napitia.Lower
open Nir
open Hir (ExprId)
open Hir.Body
open Resourceck (LocalPlace CleanupAction ConsumeInfo CheckedDeferPlan CheckedObservation
  ObservationExit ofRoot fieldOf)

def unsupported (feature : String) : Diagnostic := ⟨"I0001", feature ++ " cannot be lowered to NIR"⟩

/-- An id as a message shows it. -/
def debugId (name : String) (index : ℕ) : String := name ++ "(" ++ toString index ++ ")"

structure FunctionSig where
  typeParams : List TypeParamId
  params : List Ty
  returnType : Ty

/-- The tables of typeck, of the capability solver and of the resource checker, and what
the HIR says of an expression or a local apart from its shape. -/
structure BodyLowering extends Lowering where
  localTypes : LocalId → Option Ty
  exprTypes : ExprId → Option Ty
  isMutable : LocalId → Bool
  nameOf : ExprId → Symbol
  interner : Symbol → String
  writtenArguments : ExprId → List Ty
  functionSigs : ItemId → Option FunctionSig
  functionRequirements : ItemId → Option (List CapabilityRequirement)
  functionRaises : ItemId → Option (List ItemId)
  callTypeArgs : ExprId → Option (List Ty)
  callEvidence : ExprId → Option (List Evidence)
  protocolCallEvidence : ExprId → Option Evidence
  cleanupEdges : ExprId → Option (List CleanupAction)
  consumeSites : ExprId → Option ConsumeInfo
  deferPlans : ExprId → Option CheckedDeferPlan
  observations : ObservationId → Option CheckedObservation
  observationExits : ExprId → Option (List ObservationExit)
  debugTy : Ty → String
  debugPattern : HirPattern → String

/-- Tables without an entry. -/
def BodyLowering.blank : BodyLowering where
  module := {}
  patternCase := ∅
  displayTy _ := ""
  localTypes _ := none
  exprTypes _ := none
  isMutable _ := false
  nameOf _ := ⟨0⟩
  interner _ := ""
  writtenArguments _ := []
  functionSigs _ := none
  functionRequirements _ := none
  functionRaises _ := none
  callTypeArgs _ := none
  callEvidence _ := none
  protocolCallEvidence _ := none
  cleanupEdges _ := none
  consumeSites _ := none
  deferPlans _ := none
  observations _ := none
  observationExits _ := none
  debugTy _ := ""
  debugPattern _ := ""

/-- An entry that has to be there. -/
def orFail {α : Type} (entry : Option α) (message : String) : Build α :=
  match entry with
  | some a => pure a
  | none => throw (internalError message)

section
variable (B : BodyLowering)

def exprTy (e : HirExpr) : Build Ty :=
  orFail (B.exprTypes e.id)
    ("expression " ++ debugId "ExprId" e.id.index ++ " has no type recorded by typeck")

def lookupFunctionSig (item : ItemId) (context : String) : Build FunctionSig :=
  orFail (B.functionSigs item)
    (context ++ " targets a function this module never resolved a signature for")

def lookupFunctionRequirements (item : ItemId) (context : String) :
    Build (List CapabilityRequirement) :=
  orFail (B.functionRequirements item)
    (context ++ " targets a function this module never resolved capability requirements for")

def lookupFunctionRaises (item : ItemId) (context : String) : Build (List ItemId) :=
  orFail (B.functionRaises item)
    (context ++ " targets a function this module never resolved a raised-effect set for")

/-- Whether an affine expression gives up what it owns here. -/
def lookupConsumeMode (id : ExprId) (ty : Ty) (context : String) : Build Bool :=
  if !B.isAffine ty then pure false
  else
    match B.consumeSites id with
    | some .transfer => pure true
    | some .observe => pure false
    | none => throw (internalError (context ++
        " is affine-typed but resourceck recorded no checked consume decision for it"))

def moveIfTransferred (value : ValueId) (ty : Ty) (transfers : Bool) : Build ValueId :=
  if transfers && B.isAffine ty then pushValue ty (.move value) else pure value

/-- The entries recorded for a site that has to have one for each declared thing. -/
def resolveEach {α : Type} (recorded : Option (List α)) (declared : ℕ) (missing : String)
    (wrong : ℕ → String) : Build (List α) :=
  match recorded with
  | none => if declared = 0 then pure [] else throw (internalError missing)
  | some entries =>
    if entries.length = declared then pure entries else throw (internalError (wrong entries.length))

def resolveCallTypeArgs (id : ExprId) (declared : List TypeParamId) (what : String) :
    Build (List Ty) :=
  resolveEach (B.callTypeArgs id) declared.length
    (what ++ " is generic (declaring " ++ toString declared.length ++
      " type parameter(s)) but has no recorded call-site type arguments")
    fun n => what ++ " declares " ++ toString declared.length ++ " type parameter(s) but has " ++
      toString n ++ " recorded call-site type argument(s)"

def resolveCallEvidence (id : ExprId) (requirements : List CapabilityRequirement)
    (what : String) : Build (List Evidence) :=
  resolveEach (B.callEvidence id) requirements.length
    (what ++ " declares " ++ toString requirements.length ++
      " capability requirement(s) but has no recorded call-site evidence")
    fun n => what ++ " declares " ++ toString requirements.length ++
      " capability requirement(s) but has " ++ toString n ++
      " recorded call-site evidence entries"

/-! ### Literals -/

/-- The one validated constant an integer literal denotes in a type; a sign of its own
comes apart from the magnitude. -/
def signedLiteral (ty : Ty) (magnitude : ℕ) (negated : Bool) : Build ValueId :=
  match (Numeric.domainOf ty).bind (·.literal magnitude negated) with
  | some value => pushValue ty (.const (.int value))
  | none => throw (internalError ("the integer literal `" ++ (if negated then "-" else "") ++
      toString magnitude ++ "` reached lowering with type `" ++ B.displayTy ty ++
      "`, which cannot hold it; typeck should have already rejected this"))

/-! ### Places -/

/-- The record a field is read out of. -/
def recordOf : Ty → Option ItemId
  | .named item => some item
  | .applied item _ => some item
  | _ => none

def fieldIndex (record : ItemId) (name : Symbol) : Option ℕ :=
  (B.module.findRecord record).bind fun layout =>
    (layout.fields.zipIdx.find? (·.1.1 = name)).map (·.2)

/-- The record and the index of a field that is read by name out of a type. -/
def resolveField (baseTy : Ty) (name : Symbol) : Build (ItemId × ℕ) :=
  match recordOf baseTy with
  | none => throw (unsupported "field access on a non-record type")
  | some record =>
    match fieldIndex B record name with
    | none => throw (unsupported "field access on an unknown field")
    | some index => pure (record, index)

/-- A local, or fields projected out of one. -/
def resolvePlaceExpr : HirExpr → Build (Option LocalPlace)
  | .localVar _ binding => pure (some (ofRoot binding))
  | .field id base => do
    match ← resolvePlaceExpr base with
    | none => pure none
    | some basePlace => do
      let baseTy ← exprTy B base
      let (record, index) ← resolveField B baseTy (B.nameOf id)
      pure (some (fieldOf basePlace record ⟨index⟩))
  | _ => pure none

def loadCurrent (binding : LocalId) : LocalBinding → Build ValueId
  | .direct value => pure value
  | .slot slot => do
    let ty ← orFail (B.localTypes binding)
      ("local " ++ debugId "LocalId" binding.index ++ " has a bound slot but no recorded type")
    pushValue ty (.load slot)

/-- The arguments the owner of a field is applied to in a type. -/
def projectionArgs (ty : Ty) (owner : ItemId) : Build (List Ty) :=
  match ty with
  | .named item => if item = owner then pure [] else throw otherType
  | .applied item args => if item = owner then pure args else throw otherType
  | _ => throw otherType
where
  otherType : Diagnostic :=
    internalError ("a checked place projects a field of " ++ debugId "ItemId" owner.index ++
      " through a value of a different type (" ++ B.debugTy ty ++ ")")

/-- The type one projection further into a place. -/
def projectTy (ty : Ty) : Projection → Build Ty
  | .variantField .. => throw (internalError ("a checked place projects through a variant field," ++
      " which this milestone's structural places never produce"))
  | .field owner field => do
    let args ← projectionArgs B ty owner
    let record ← orFail (B.module.findRecord owner)
      ("a checked place projects through unknown record " ++ debugId "ItemId" owner.index)
    let fieldTy ← orFail (record.fields[field.index]?.map (·.2))
      ("a checked place projects field " ++ debugId "FieldId" field.index ++
        ", out of range for record " ++ debugId "ItemId" owner.index)
    let subst ← orFail (checkedSubstitution (record.typeParams.map (·.1)) args)
      ("a checked place projects through " ++ debugId "ItemId" owner.index ++ ", which declares " ++
        toString record.typeParams.length ++ " type parameter(s) but is applied to " ++
        toString args.length ++ " type argument(s)")
    pure (substitute fieldTy subst)

/-- The place at the current value of its root, and its type. -/
def resolveNirPlace (place : LocalPlace) : Build (Place ValueId × Ty) := do
  let binding ← orFail ((← get).localBindings.lookup place.root)
    ("a checked place names local " ++ debugId "LocalId" place.root.index ++
      ", which this frame never bound")
  let root ← loadCurrent B place.root binding
  let rootTy ← orFail (B.localTypes place.root)
    ("local " ++ debugId "LocalId" place.root.index ++ " has no type recorded by typeck")
  let ty ← place.projections.foldlM (projectTy B) rootTy
  pure (⟨root, place.projections⟩, ty)

def fieldReadMode (id : ExprId) : OwnershipMode :=
  match B.consumeSites id with
  | some .transfer => .transfer
  | _ => .observe

/-! ### Exits -/

/-- Every observation an exit ends, the innermost first. -/
def emitObservationEnds (exit : ExprId) : Build Unit :=
  match B.observationExits exit with
  | none => pure ()
  | some ends => ends.forM fun ended => do
    if ended.exit ≠ exit then
      throw (internalError ("a checked observation end filed under exit " ++
        debugId "ExprId" exit.index ++ " names exit " ++ debugId "ExprId" ended.exit.index))
    if (B.observations ended.observation).isNone then
      throw (internalError ("exit " ++ debugId "ExprId" exit.index ++ " ends observation " ++
        debugId "ObservationId" ended.observation.index ++ ", which has no checked record"))
    pushInstruction (.endObserve ended.observation)

/-- The value of a place that is destroyed: a whole local, or a field moved out first. -/
def takePlace (place : LocalPlace) : Build ValueId :=
  if place.projections = [] then do
    let binding ← orFail ((← get).localBindings.lookup place.root)
      ("a checked cleanup action drops local " ++ debugId "LocalId" place.root.index ++
        ", which this frame never bound")
    loadCurrent B place.root binding
  else do
    let resolved ← resolveNirPlace B place
    pushValue resolved.2 (.placeRead resolved.1 .transfer)

def emitDrop (place : LocalPlace) : Build Unit := do
  let value ← takePlace B place
  pushInstruction (.drop value)

/-- A deferred call replayed; the order it was registered in is returned. -/
def emitDeferred (id : ExprId) (last : Option ℕ) : Build ℕ := do
  let pending ← orFail ((← get).deferCalls.lookup id)
    "a checked cleanup action replays a `defer` this frame never lowered"
  let plan ← orFail (B.deferPlans id) ("a checked cleanup action replays defer " ++
    debugId "ExprId" id.index ++ ", which has no checked plan recorded")
  if (last.map fun last => decide (last ≤ plan.registrationOrder)).getD false then
    throw (internalError ("a checked cleanup list replays defer " ++ debugId "ExprId" id.index ++
      " out of its own declared LIFO registration order"))
  let _ ← pushValue pending.retTy
    (.call pending.callee pending.typeArgs pending.args pending.evidence)
  pure plan.registrationOrder

/-- The cleanup of an exit, in the order it is replayed. -/
def replayCleanup : Option ℕ → List CleanupAction → Build Unit
  | _, [] => pure ()
  | last, .drop place :: rest => do
    emitDrop B place
    replayCleanup last rest
  | last, .defer id :: rest => do
    let order ← emitDeferred B id last
    replayCleanup (some order) rest

def emitCheckedCleanup (exit : ExprId) : Build Unit := do
  emitObservationEnds B exit
  let actions ← orFail (B.cleanupEdges exit) ("exit " ++ debugId "ExprId" exit.index ++
    " is reachable but resourceck recorded no checked cleanup plan for it")
  replayCleanup B none actions

end

end Napitia.Lower

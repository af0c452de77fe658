import Napitia.Hir.Body
import Napitia.Lib.Assoc
import Napitia.Lib.Prefixes
import Napitia.Resourceck.Affine

/-!
# The state of the ownership checker

A place is a local and the fields projected out of it. The checker records a state only
for the places something happened to, and reads a place from its root down: the first
record on the way that is not `available` decides. Diagnostics are kept by their codes;
their texts and spans, and the display names they are made from, are left out.
-/
namespace Napitia.Resourceck
open Nir Lower Typeck
open Hir (ExprId HirHandleArmKind HirFailurePattern)
open Hir.Body

/-! ### Places -/

abbrev LocalPlace := Place LocalId

instance : LawfulBEq LocalPlace := inferInstance

/-- The place of a whole local. -/
def ofRoot (root : LocalId) : LocalPlace := ⟨root, []⟩

/-- One field of a place. -/
def fieldOf (place : LocalPlace) (owner : ItemId) (field : FieldId) : LocalPlace :=
  { place with projections := place.projections ++ [.field owner field] }

def isAncestorOf (a b : LocalPlace) : Bool :=
  a.root = b.root ∧ a.projections <+: b.projections

def placesOverlap (a b : LocalPlace) : Bool := isAncestorOf a b || isAncestorOf b a

/-! ### What is recorded for a place -/

inductive ResourceState where
  | available | moved | dropScheduled | dropped | error
  deriving DecidableEq, Repr

/-- Identical states agree; anything else is an error. -/
def ResourceState.join (a b : ResourceState) : ResourceState := if a = b then a else .error

abbrev PlaceStates := AList fun _ : LocalPlace => ResourceState

/-- The record of a place, `available` where nothing has happened to it. -/
def recorded (states : PlaceStates) (place : LocalPlace) : ResourceState :=
  (states.lookup place).getD .available

/-- A place is dominated by its shortest recorded prefix that is not `available`. -/
def placeState (states : PlaceStates) (place : LocalPlace) : ResourceState :=
  Prefixes.firstAlong (fun projections => recorded states ⟨place.root, projections⟩) .available
    place.projections

/-- Records a place, and forgets everything recorded strictly below it. -/
def setPlaceState (states : PlaceStates) (place : LocalPlace) (state : ResourceState) :
    PlaceStates :=
  (states.retain fun key => key.root ≠ place.root || !isAncestorOf place key || key = place).insert
    place state

def holdsLiveValue : ResourceState → Bool
  | .available | .dropScheduled => true
  | _ => false

inductive PlaceStatus where
  | available | partiallyMoved
  | observed (holders : List ObservationId)
  | moved | dropped | dropScheduled | error
  deriving DecidableEq, Repr

/-! ### What the checker reads and keeps -/

/-- What earlier stages hand to the checker. The queries of affinity are given as many
steps as `fuel` allows. -/
structure FlowContext where
  localTypes : LocalId → Option Ty
  exprTypes : ExprId → Option Ty
  affineItems : List ItemId
  variantItems : ItemId → Bool
  takeFlags : ItemId → Option (List Bool)
  affine : AffineContext
  fieldProjections : ExprId → Option (ItemId × ℕ)
  fuel : ℕ

inductive ConsumeKind where
  | read | returned | other
  deriving DecidableEq, Repr

inductive ConsumeInfo where
  | observe | transfer
  deriving DecidableEq, Repr

inductive CleanupAction where
  | drop (place : LocalPlace)
  | defer (id : ExprId)
  deriving DecidableEq, Repr

structure CheckedDeferPlan where
  callee : ItemId
  argModes : List ConsumeInfo
  argTypes : List Ty
  argPlaces : List (Option LocalPlace)
  returnType : Ty
  registrationOrder : ℕ

structure CheckedObservation where
  id : ObservationId
  source : LocalPlace
  aliased : LocalId
  ty : Ty
  lexicalScope : ExprId

structure ObservationExit where
  observation : ObservationId
  exit : ExprId
  deriving DecidableEq, Repr

structure ActiveObservation where
  id : ObservationId
  place : LocalPlace
  aliased : LocalId
  deriving DecidableEq, Repr

structure LoopFrame where
  breakStates : List PlaceStates := []
  continueStates : List PlaceStates := []
  cleanupMarker : ℕ
  observationMarker : ℕ
  deferScopeMarker : ℕ

/-- The checker at one point of its walk. The stacks (loops, defer scopes, pending
cleanup, observations) have their latest element first; a table that is written to by
id keeps every write, the latest first. -/
structure FlowState where
  diagnostics : List String := []
  states : PlaceStates := ∅
  observing : List LocalId := []
  loopStack : List LoopFrame := []
  deferScopes : List (List LocalPlace) := []
  divergingLoops : List ExprId := []
  pendingCleanup : List CleanupAction := []
  cleanupEdges : List (ExprId × List CleanupAction) := []
  consumeSites : List (ExprId × ConsumeInfo) := []
  deferPlans : List (ExprId × CheckedDeferPlan) := []
  nextDeferRegistration : ℕ := 0
  observations : List ActiveObservation := []
  observationAliases : List (LocalId × ObservationId) := []
  checkedObservations : List (ObservationId × CheckedObservation) := []
  observationExits : List (ExprId × List ObservationExit) := []

abbrev FlowM (α : Type) := StateM FlowState α

/-! ### Queries -/

namespace FlowContext
variable (C : FlowContext)

def isAffine (ty : Ty) : Bool := Resourceck.isAffine C.affine C.affineItems C.fuel ty = some true

def isResourceLocal (binding : LocalId) : Bool := ((C.localTypes binding).map C.isAffine).getD false

def isAffineExpr (id : ExprId) : Bool := ((C.exprTypes id).map C.isAffine).getD false

def diverges (id : ExprId) : Bool := C.exprTypes id = some .never

def resolvePlace : HirExpr → Option LocalPlace
  | .localVar _ binding => some (ofRoot binding)
  | .field id base => do
    let basePlace ← resolvePlace base
    let (owner, field) ← C.fieldProjections id
    some (fieldOf basePlace owner ⟨field⟩)
  | _ => none

def substituteField (owner : ItemId) (args : List Ty) (fieldTy : Ty) : Option Ty := do
  let params ← C.affine.itemTypeParams owner
  let subst ← checkedSubstitution params args
  some (substitute fieldTy subst)

/-- The arguments a type applies an item to. -/
def argsOf (owner : ItemId) : Ty → Option (List Ty)
  | .named item => if item = owner then some [] else none
  | .applied item args => if item = owner then some args else none
  | _ => none

def projectTy (ty : Ty) : Projection → Option Ty
  | .field owner field => do
    let args ← argsOf owner ty
    let fields ← C.affine.aggregateFieldTypes owner
    let fieldTy ← fields[field.index]?
    C.substituteField owner args fieldTy
  | .variantField .. => none

def placeTy (place : LocalPlace) : Option Ty := do
  let ty ← C.localTypes place.root
  place.projections.foldlM C.projectTy ty

/-- The fields a place of this type is tracked by: none for a variant, nor where the
generic metadata of the item is malformed. -/
def decomposableFields (ty : Ty) : Option (ItemId × List Ty) := do
  let (item, args) ←
    match ty with
    | .named item => some (item, [])
    | .applied item args => some (item, args)
    | _ => none
  if C.variantItems item then none
  else
    let declared ← C.affine.aggregateFieldTypes item
    let fields ← declared.mapM (C.substituteField item args)
    some (item, fields)

/-- Whether a place and every affine field below it are in a state that passes, down to
the generic depth limit. -/
def wholly (passes : ResourceState → Bool) (states : PlaceStates) : ℕ → LocalPlace → Ty → Bool
  | 0, _, _ => true
  | n + 1, place, ty =>
    passes (placeState states place) &&
      match C.decomposableFields ty with
      | none => true
      | some (item, fields) => fields.zipIdx.all fun field =>
          !C.isAffine field.1 || wholly passes states n (fieldOf place item ⟨field.2⟩) field.1

/-- The levels below a place that the generic depth limit leaves. -/
def levelsBelow (place : LocalPlace) : ℕ := Limits.maxGenericDepth - place.projections.length

def placeIsWhollyAvailable (states : PlaceStates) (place : LocalPlace) (ty : Ty) : Bool :=
  C.wholly (· = .available) states (levelsBelow place) place ty

def placeIsWhollyPresent (states : PlaceStates) (place : LocalPlace) (ty : Ty) : Bool :=
  C.wholly holdsLiveValue states (levelsBelow place) place ty

def structuralDropTargetsWithin (states : PlaceStates) : ℕ → LocalPlace → List LocalPlace
  | 0, place => [place]
  | n + 1, place =>
    if !holdsLiveValue (placeState states place) then []
    else
      match C.placeTy place with
      | none => []
      | some ty =>
        match C.decomposableFields ty with
        | none => [place]
        | some (item, fields) =>
          (fields.zipIdx.reverse.flatMap fun field =>
            if C.isAffine field.1 then
              structuralDropTargetsWithin states n (fieldOf place item ⟨field.2⟩)
            else []) ++
          if C.affine.declaredResource item then [place] else []

/-- The places a structural drop destroys: the owned affine fields, the last one first,
and the place itself where it is a resource of its own. -/
def structuralDropTargets (states : PlaceStates) (place : LocalPlace) : List LocalPlace :=
  C.structuralDropTargetsWithin states (levelsBelow place) place

def placeStatus (s : FlowState) (place : LocalPlace) : PlaceStatus :=
  match placeState s.states place with
  | .error => .error
  | .moved => .moved
  | .dropped => .dropped
  | state =>
    if ((C.placeTy place).map fun ty => C.placeIsWhollyPresent s.states place ty) = some false then
      .partiallyMoved
    else
      let holders := (s.observations.reverse.filter fun o => placesOverlap o.place place).map (·.id)
      if holders ≠ [] then .observed holders
      else if state = .dropScheduled then .dropScheduled
      else .available

end FlowContext

end Napitia.Resourceck

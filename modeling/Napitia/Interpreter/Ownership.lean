import Napitia.Lib.Effect
import Napitia.Interpreter.Plan

/-!
# The ownership operations

The operations that move, destroy, observe and reinitialize, each in the order
the source performs its steps: every question first, the writes afterwards. They
are actions over the state they write to, and keep that state when they fail.
-/
namespace Napitia.Interpreter
open Nir

/-- What one interpreter carries between and across frames. -/
structure InterpreterState where
  resources : ResourceTable := {}
  callDepth : ℕ := 0
  terminated : Bool := false
  deriving Repr

/-- What the running frame can write: the interpreter, its own values and its
own stack of observations, innermost last. -/
structure FrameState where
  interpreter : InterpreterState
  values : Values
  activeLeases : List (ObservationId × RuntimeObservationId)

namespace FrameState

def resources (s : FrameState) : ResourceTable := s.interpreter.resources

def withResources (s : FrameState) (t : ResourceTable) : FrameState :=
  { s with interpreter := { s.interpreter with resources := t } }

def insert (s : FrameState) (id : ValueId) (value : Value) : FrameState :=
  { s with values := s.values.insert id value }

end FrameState

/-- A table operation, performed by a frame. -/
def onTable {α : Type} (x : Op ResourceTable α) : Op FrameState α :=
  EStateM.zoom FrameState.resources (fun t s => s.withResources t) x

/-- The generation changes of a complete plan, the one point at which a planned
transfer becomes real. -/
def ResourceTable.commitTransfer (t : ResourceTable) (plan : StorePlan) : ResourceTable :=
  plan.transitions.foldl (fun table p => table.setGeneration p.1 p.2) t

/-- What a place traversal read or removed, and the container it was handed in
the state in which it must be written back. -/
structure AccessResult where
  extracted : Value
  container : Value

/-- The committing half of `takeProjections`. -/
def commitTakeProjections : Value → List Projection → Op ResourceTable AccessResult
  | container, [] => pure ⟨container, container⟩
  | container, first :: rest => do
    let index ← liftExcept (projectionIndex first)
    match container with
    | .resource handle =>
      if rest.isEmpty then
        let extracted ← takeField handle index
        if extracted.isTombstone then
          restoreField handle index extracted
          throw (invalid "transfer of a resource field that was already moved or dropped")
        pure ⟨extracted, .resource handle⟩
      else
        let inner ← liftExcept ((← get).observeField handle index)
        let inner ← commitTakeProjections inner rest
        restoreField handle index inner.container
        pure ⟨inner.extracted, .resource handle⟩
    | .record item typeArgs fields =>
      match fields[index]? with
      | none => throw (invalid "a place projects a field index out of range for this record")
      | some field =>
        if rest.isEmpty then
          if field.isTombstone then
            throw (invalid "transfer of a record field that was already moved or dropped")
          pure ⟨field, .record item typeArgs (fields.set index .moved)⟩
        else
          let inner ← commitTakeProjections field rest
          pure ⟨inner.extracted, .record item typeArgs (fields.set index inner.container)⟩
    | .moved => throw (invalid "use of a field after it was already moved")
    | .dropped => throw (invalid "use of a field after it was already dropped")
    | other => throw (invalid
        ("a place projects through a non-aggregate value (" ++ kindName other ++ ")"))

/-- Removes the value at the final step and leaves a tombstone in its place. -/
def takeProjections (container : Value) (projections : List Projection) :
    Op ResourceTable AccessResult := do
  liftExcept (validatePlacePath (← get) .take Limits.maxGenericDepth container projections false)
  commitTakeProjections container projections

/-- The committing half of `storeProjections`. -/
def commitStoreProjections (value : Value) : Value → List Projection → Op ResourceTable Value
  | _, [] => pure value
  | container, first :: rest => do
    let index ← liftExcept (projectionIndex first)
    match container with
    | .resource handle =>
      if rest.isEmpty then
        setField handle index value
      else
        let inner ← liftExcept ((← get).observeField handle index)
        let updatedInner ← commitStoreProjections value inner rest
        restoreField handle index updatedInner
      pure (.resource handle)
    | .record item typeArgs fields =>
      match fields[index]? with
      | none => throw (invalid "a place projects a field index out of range for this record")
      | some field =>
        if rest.isEmpty then
          if !field.isTombstone then
            throw (invalid "cannot overwrite a record field that still owns a live value")
          pure (.record item typeArgs (fields.set index value))
        else
          let updated ← commitStoreProjections value field rest
          pure (.record item typeArgs (fields.set index updated))
    | .moved => throw (invalid "a place reinitializes through a field that was already moved")
    | .dropped => throw (invalid "a place reinitializes through a field that was already dropped")
    | other => throw (invalid
        ("a place projects through a non-aggregate value (" ++ kindName other ++ ")"))

/-- Replaces the tombstone at the final step by a value. -/
def storeProjections (container : Value) (projections : List Projection) (value : Value) :
    Op ResourceTable Value := do
  liftExcept (validatePlacePath (← get) .store Limits.maxGenericDepth container projections false)
  commitStoreProjections value container projections

section
variable (m : Module)

/-- Destroys a value and everything it still owns, in the planned order. -/
def dropValue (value : Value) : Op ResourceTable Unit := do
  liftExcept (validateOwnedGraph m (← get) value)
  liftExcept (rejectLeasedValue (← get) value "dropped")
  let ((), _, plan) ← liftExcept ((planDrop m (← get) Limits.maxGenericDepth value).run ([], []))
  plan.forM dropResource

/-- Moves ownership of every resource a value carries inline. -/
def transferIfResource (value : Value) : Op ResourceTable Value := do
  let (rebuilt, plan) ← liftExcept ((planTransfer m (← get) value).run {})
  modify (·.commitTransfer plan)
  pure rebuilt

variable (loadOrigin : LoadOrigin)

/-- `observe.place`: everything fallible first, the lease installed last. -/
def beginObserve (observation : ObservationId) (place : Place ValueId) (declared : Ty) :
    Op FrameState Value := do
  if (← get).activeLeases.any fun l => l.1 = observation then
    throw (invalid "an observation began again while it was still active")
  let rootId := canonicalRoot loadOrigin place.root
  let root ← liftExcept ((← get).values.read rootId)
  let seen ← liftExcept (observeProjections (← get).resources root place.projections)
  liftExcept (validateObservationSource (← get).resources Limits.maxGenericDepth seen)
  liftExcept (validateArgument m (← get).resources seen declared)
  let ((), observed) ← liftExcept
    ((collectReachableResources (← get).resources Limits.maxGenericDepth seen).run [])
  let reserved := (← get).resources.reservedLeaseId
  let view ← liftExcept (toLeasedView (← get).resources reserved Limits.maxGenericDepth seen)
  let parent := (← get).activeLeases.getLast?.map (·.2)
  onTable (commitLease reserved observed parent)
  modify fun s => { s with activeLeases := s.activeLeases ++ [(observation, reserved)] }
  pure view

/-- `end.observe`, accepted only for the frame's innermost observation. -/
def endObserve (observation : ObservationId) : Op FrameState Unit := do
  match (← get).activeLeases.getLast? with
  | some (id, lease) =>
    if id = observation then
      onTable (endLease lease)
      modify fun s => { s with activeLeases := s.activeLeases.dropLast }
    else
      throw (invalid "an observation ended while an observation opened inside it is still active")
  | none => throw (invalid "an observation ended that this frame never began")

def accessPlace (place : Place ValueId) (mode : OwnershipMode) : Op FrameState Value := do
  let rootId := canonicalRoot loadOrigin place.root
  let root ← liftExcept ((← get).values.read rootId)
  match mode with
  | .observe =>
    let seen ← liftExcept (observeProjections (← get).resources root place.projections)
    liftExcept (toObserverIfResource (← get).resources seen)
  | .transfer =>
    let seen ← liftExcept (observeProjections (← get).resources root place.projections)
    liftExcept (rejectLeasedValue (← get).resources seen "moved out of its place")
    let result ← onTable (takeProjections root place.projections)
    modify fun s => s.insert rootId result.container
    pure result.extracted

/-- Reinitializes a place with the value `source` names, as a transfer. -/
def storePlaceTransfer (place : Place ValueId) (source : ValueId) : Op FrameState Unit := do
  let rootId := canonicalRoot loadOrigin place.root
  let sourceId := canonicalRoot loadOrigin source
  if sourceId = rootId then
    throw (invalid "a structural store's own source and destination name the same storage")
  let root ← liftExcept ((← get).values.read rootId)
  let incoming ← liftExcept ((← get).values.read source)
  liftExcept (validateOwnedGraph m (← get).resources incoming)
  let (rebuilt, plan) ← liftExcept ((planTransfer m (← get).resources incoming).run {})
  liftExcept (validateStoreTarget (← get).resources root place.projections)
  let destination ← liftExcept
    (destinationIdentities (← get).resources root place.projections)
  let ((), owned) ← liftExcept
    ((collectOwnedIdentities (← get).resources Limits.maxGenericDepth root).run [])
  if (owned ++ destination).any fun id => id ∈ plan.reachable then
    throw (invalid
      "a structural store's own source and destination share a resource identity")
  let updatedRoot ← onTable (storeProjections root place.projections rebuilt)
  onTable (modify (·.commitTransfer plan))
  modify fun s => s.insert rootId updatedRoot
  modify fun s => s.insert source .moved
  modify fun s => s.insert sourceId .moved

/-- One claim of a decomposition, checked against the payload it names. -/
def validateClaim (values : Values) (payload : List Value) (seen : List ℕ)
    (claim : ℕ × ValueId) : Except InterpreterError Unit := do
  if !(values.lookup claim.2).isSome then
    throw (invalid "a variant decomposition hands a payload to a value this frame never computed")
  if claim.1 ∈ seen then
    throw (invalid "a variant decomposition claims the same payload position more than once")
  match payload[claim.1]? with
  | none => throw (invalid
      "a variant decomposition claims a payload position out of range for its case")
  | some slot =>
    if slot.isTombstone then
      throw (invalid "a variant decomposition claims a position whose ownership already moved")
    match values.lookup claim.2 with
    | none => throw (invalid
        "a variant decomposition hands a payload to a value this frame never computed")
    | some receiver =>
      if !receiver.eqv slot then
        throw (invalid ("a variant decomposition hands a payload position to a value that is " ++
          "not what that position holds"))

/-- Every claim in order, each against the positions claimed before it. -/
def validateClaims (values : Values) (payload : List Value) :
    List ℕ → List (ℕ × ValueId) → Except InterpreterError Unit
  | _, [] => pure ()
  | seen, claim :: rest => do
    validateClaim values payload seen claim
    validateClaims values payload (seen ++ [claim.1]) rest

/-- Moves each claimed payload position out of the shell that still holds it. -/
def decomposeVariant (value : ValueId) (variant : ItemId) (case : ℕ)
    (taken : List (ℕ × ValueId)) : Op FrameState Unit := do
  let shellId := canonicalRoot loadOrigin value
  let shell ← liftExcept ((← get).values.read shellId)
  match shell with
  | .variant item typeArgs activeCase payload =>
    if item ≠ variant then
      throw (invalid
        "a variant decomposition names a different variant than its own value holds")
    if activeCase ≠ case then
      throw (invalid "a variant decomposition names a case other than the one actually live")
    let t := (← get).resources
    liftExcept (payload.forM fun slot =>
      rejectLeasedValue t slot "decomposed out of its variant")
    liftExcept (validateOwnedGraph m t (.variant item typeArgs activeCase payload))
    liftExcept (validateClaims (← get).values payload [] taken)
    modify fun s => s.insert shellId (.variant item typeArgs activeCase
      (taken.foldl (fun slots claim => slots.set claim.1 .moved) payload))
  | _ => throw (invalid "a variant decomposition names a value that is not a variant")

end

end Napitia.Interpreter

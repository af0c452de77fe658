import Napitia.Lib.Stateful
import Napitia.Resourceck.Joins
import Napitia.Resourceck.Places

/-!
# Uses of a place

What reading, moving, dropping and assigning a place does to the checker's state, and
what it reports. A place reported once is recorded as an error and reported no more.
-/
namespace Napitia.Resourceck
open Nir Lower
open Hir (ExprId)
open Hir.Body

namespace Codes

def useAfterMove : String := "U0001"
def useAfterDrop : String := "U0002"
def doubleDrop : String := "U0003"
def moveAfterDeferCaptured : String := "U0004"
def observationEscapes : String := "U0005"
def reassignmentOfLiveResource : String := "U0010"
def partialParentUsedAsWhole : String := "U0014"
def observationAliasEscapes : String := "U0016"
def ownershipWhileObserved : String := "U0017"

end Codes

def diagnose (code : String) : FlowM Unit :=
  modify fun s => { s with diagnostics := s.diagnostics ++ [code] }

def FlowState.setPlace (s : FlowState) (place : LocalPlace) (state : ResourceState) : FlowState :=
  { s with states := setPlaceState s.states place state }

def setPlace (place : LocalPlace) (state : ResourceState) : FlowM Unit :=
  modify fun s => s.setPlace place state

/-- Records a state for a place, whatever is recorded below it. -/
def insertState (place : LocalPlace) (state : ResourceState) : FlowM Unit :=
  modify fun s => { s with states := s.states.insert place state }

/-- Reports a place and records it as an error. -/
def refuse (code : String) (place : LocalPlace) : FlowM Unit := do
  diagnose code
  setPlace place .error

def recordConsume (id : ExprId) (info : ConsumeInfo) : FlowM Unit :=
  modify fun s => { s with consumeSites := (id, info) :: s.consumeSites }

def recordCleanup (id : ExprId) (actions : List CleanupAction) : FlowM Unit :=
  modify fun s => { s with cleanupEdges := (id, actions) :: s.cleanupEdges }

/-- A step taken only where the condition holds. -/
def whenever (c : Bool) (x : FlowM Unit) : FlowM Unit := if c then x else pure ()

def pushCleanup (action : CleanupAction) : FlowM Unit :=
  modify fun s => { s with pendingCleanup := action :: s.pendingCleanup }

/-! ### Rejections -/

/-- The innermost observation holding a place that overlaps this one. -/
def conflictingObservation (s : FlowState) (place : LocalPlace) : Option ActiveObservation :=
  s.observations.find? fun o => placesOverlap o.place place

/-- Whether a part of an observing parameter, or something reached through an observation
alias, or something an observation holds is used as if it were owned, with the code it is
reported by. -/
def FlowState.rejectsOwnership (s : FlowState) (place : LocalPlace) : Option String :=
  if place.projections ≠ [] ∧ place.root ∈ s.observing then some Codes.observationEscapes
  else if (s.observationAliases.lookup place.root).isSome then some Codes.observationAliasEscapes
  else if (conflictingObservation s place).isSome then some Codes.ownershipWhileObserved
  else none

/-- The three rejections an ownership use of a place goes through, in order. -/
def rejectOwnership (place : LocalPlace) : FlowM Bool := do
  match (← get).rejectsOwnership place with
  | some code => do
    diagnose code
    pure true
  | none => pure false

def hasDeferProtectedDescendant (states : PlaceStates) (root : LocalPlace) : Bool :=
  states.entries.any fun entry =>
    entry.1 ≠ root && isAncestorOf root entry.1 && entry.2 = .dropScheduled

section
variable (C : FlowContext)

/-! ### Reading -/

def checkPlaceRead (place : LocalPlace) : FlowM Unit := do
  match placeState (← get).states place with
  | .available | .dropScheduled | .error => pure ()
  | .moved => refuse Codes.useAfterMove place
  | .dropped => refuse Codes.useAfterDrop place

/-- A local some of whose fields are gone or needed by a `defer` is not used as a whole. -/
def rejectPartialWholeUse (root : LocalPlace) : FlowM Bool := do
  let s ← get
  match C.placeTy root with
  | none => pure false
  | some ty =>
    if C.placeIsWhollyAvailable s.states root ty then pure false
    else if hasDeferProtectedDescendant s.states root then do
      diagnose Codes.moveAfterDeferCaptured
      pure true
    else do
      diagnose Codes.partialParentUsedAsWhole
      pure true

def checkRead (binding : LocalId) : FlowM Unit := do
  let s ← get
  if binding ∈ s.observing then pure ()
  else
    match s.states.lookup (ofRoot binding) with
    | none => pure ()
    | some .available => do
      let _ ← rejectPartialWholeUse C (ofRoot binding)
    | some .dropScheduled | some .error => pure ()
    | some .moved => refuse Codes.useAfterMove (ofRoot binding)
    | some .dropped => refuse Codes.useAfterDrop (ofRoot binding)

/-! ### Moving -/

def applyPlaceMove (place : LocalPlace) : FlowM Unit := do
  if ← rejectOwnership place then pure ()
  else
    match placeState (← get).states place with
    | .available => setPlace place .moved
    | .error => pure ()
    | .moved => refuse Codes.useAfterMove place
    | .dropped => refuse Codes.useAfterDrop place
    | .dropScheduled => refuse Codes.moveAfterDeferCaptured place

def checkConsume (binding : LocalId) : FlowM Unit := do
  if binding ∈ (← get).observing then diagnose Codes.observationEscapes
  else if ← rejectOwnership (ofRoot binding) then pure ()
  else
    match (← get).states.lookup (ofRoot binding) with
    | none => pure ()
    | some .available => do
      if ← rejectPartialWholeUse C (ofRoot binding) then pure ()
      else setPlace (ofRoot binding) .moved
    | some .error => pure ()
    | some .moved => refuse Codes.useAfterMove (ofRoot binding)
    | some .dropped => refuse Codes.useAfterDrop (ofRoot binding)
    | some .dropScheduled => refuse Codes.moveAfterDeferCaptured (ofRoot binding)

def checkLocalUse (binding : LocalId) (kind : ConsumeKind) : FlowM Unit :=
  if kind = .read then checkRead C binding else checkConsume C binding

/-! ### Dropping -/

/-- An available place dropped: what is left of it is destroyed here. -/
def dropAvailable (place : LocalPlace) (id : ExprId) : FlowM Bool := do
  let s ← get
  if hasDeferProtectedDescendant s.states place then do
    refuse Codes.moveAfterDeferCaptured place
    pure false
  else do
    recordCleanup id ((C.structuralDropTargets s.states place).map .drop)
    pure true

def checkLocalDrop (binding : LocalId) (id : ExprId) : FlowM Unit := do
  if binding ∈ (← get).observing then diagnose Codes.observationEscapes
  else if ← rejectOwnership (ofRoot binding) then pure ()
  else
    match (← get).states.lookup (ofRoot binding) with
    | none => pure ()
    | some .available => do
      if ← dropAvailable C (ofRoot binding) id then setPlace (ofRoot binding) .dropped
    | some .error => pure ()
    | some .moved => refuse Codes.useAfterMove (ofRoot binding)
    | some .dropped => refuse Codes.doubleDrop (ofRoot binding)
    | some .dropScheduled => refuse Codes.moveAfterDeferCaptured (ofRoot binding)

def checkFieldDrop (place : LocalPlace) (id : ExprId) : FlowM Unit := do
  if ← rejectOwnership place then pure ()
  else
    match placeState (← get).states place with
    | .available => do
      if ← dropAvailable C place id then
        recordConsume id .transfer
        setPlace place .dropped
    | .error => pure ()
    | .moved => refuse Codes.useAfterMove place
    | .dropped => refuse Codes.doubleDrop place
    | .dropScheduled => refuse Codes.moveAfterDeferCaptured place

/-! ### Assigning -/

/-- A place is assigned to only where its state proves it empty. -/
def checkReassignment (place : LocalPlace) : FlowM Unit := do
  if ← rejectOwnership place then pure ()
  else
    match placeState (← get).states place with
    | .moved | .dropped => setPlace place .available
    | .error => pure ()
    | .available | .dropScheduled => refuse Codes.reassignmentOfLiveResource place

end

section
variable {place : LocalPlace} {s : FlowState} {code : String}

theorem run_rejectOwnership_some (h : s.rejectsOwnership place = some code) :
    (rejectOwnership place).run s =
      (true, { s with diagnostics := s.diagnostics ++ [code] }) := by
  simp only [rejectOwnership, Stateful.run_bind, Stateful.run_get, h]
  rfl

theorem run_rejectOwnership_none (h : s.rejectsOwnership place = none) :
    (rejectOwnership place).run s = (false, s) := by
  simp only [rejectOwnership, Stateful.run_bind, Stateful.run_get, h]
  rfl

theorem run_refuse : (refuse code place).run s =
    (⟨⟩, { s with diagnostics := s.diagnostics ++ [code]
                  states := setPlaceState s.states place .error }) := rfl

end

end Napitia.Resourceck

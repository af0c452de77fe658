import Mathlib.Data.List.Sort
import Napitia.Interpreter.Shape

/-!
# Planning an ownership operation

The read-only half of every ownership operation: the walk that validates a
place, the walk that plans a transfer or a destruction, the identities an
operation would touch and the leases that forbid it. The committing half is in
`Napitia.Interpreter.Ownership`.

The sets of identities a walk carries are duplicate-free lists in discovery
order.
-/
namespace Napitia.Interpreter
open Nir

/-- The values of one frame. -/
abbrev Values := AList (fun _ : ValueId => Value)

/-- The slot each `Load` of the running function reads from. -/
abbrev LoadOrigin := AList (fun _ : ValueId => ValueId)

def Values.read (values : Values) (id : ValueId) : Except InterpreterError Value :=
  match values.lookup id with
  | some value => pure value
  | none => throw (invalid ("%" ++ toString id.index ++ " was read before it was computed"))

/-- The storage a place's root names: a chain of loads is followed to its fixed
point, for at most as many steps as there are loads. -/
def canonicalRoot (loadOrigin : LoadOrigin) (root : ValueId) : ValueId :=
  go (loadOrigin.entries.length + 1) root
where
  go : ℕ → ValueId → ValueId
  | 0, current => current
  | n + 1, current =>
    match loadOrigin.lookup current with
    | some next => if next ≠ current then go n next else current
    | none => current

/-- A field's index; a variant field is never part of a runtime place. -/
def projectionIndex : Projection → Except InterpreterError ℕ
  | .field _ field => pure field.index
  | .variantField .. => throw (invalid
      ("a place projects through a variant field, which this milestone's runtime never " ++
        "produces"))

private def throughNonAggregate {α : Type} (value : Value) : Except InterpreterError α :=
  throw (invalid ("a place projects through a non-aggregate value (" ++ kindName value ++ ")"))

section
variable (t : ResourceTable)

/-- What an observation may bind: no tombstone anywhere reachable, and every
handle live, current and observable. -/
def validateObservationSource : ℕ → Value → Except InterpreterError Unit
  | 0, _ =>
    throw (invalid "an observed value is nested more deeply than this milestone supports")
  | n + 1, value =>
    match value with
    | .moved => throw (invalid "cannot observe a place whose value was already moved out")
    | .dropped => throw (invalid "cannot observe a place whose value was already destroyed")
    | .resource handle => do
      let record ← t.observe handle
      record.fields.forM (validateObservationSource n)
    | .record _ _ fields => fields.forM (validateObservationSource n)
    | .variant _ _ _ payload => payload.forM (validateObservationSource n)
    | _ => pure ()

/-- Every identity reachable through a value, outermost first. A repeat is
skipped, and a handle that no longer resolves has nothing to walk into. -/
def collectReachableResources : ℕ → Value → Walk Unit
  | 0, _ => throw (invalid
      "a runtime ownership graph is nested more deeply than this milestone supports")
  | n + 1, value =>
    match value with
    | .resource handle => do
      let seen ← get
      if handle.id ∈ seen then pure ()
      else
        set (seen ++ [handle.id])
        match t.record handle with
        | .ok record => record.fields.forM (collectReachableResources n)
        | .error _ => pure ()
    | .record _ _ fields => fields.forM (collectReachableResources n)
    | .variant _ _ _ payload => payload.forM (collectReachableResources n)
    | _ => pure ()

/-- Refuses an operation over an identity some active lease holds; the lowest
such identity is the one reported. -/
def rejectLeasedIdentities (identities : List ResourceId) (what : String) :
    Except InterpreterError Unit :=
  (identities.insertionSort fun a b => a.index ≤ b.index).forM fun id =>
    match t.activeLeaseHolding id with
    | some lease => throw (invalid ("a resource cannot be " ++ what ++ " while observation " ++
        toString lease.index ++ " is still holding it"))
    | none => pure ()

def rejectLeasedValue (value : Value) (what : String) : Except InterpreterError Unit := do
  let ((), seen) ← (collectReachableResources t Limits.maxGenericDepth value).run []
  rejectLeasedIdentities t seen what

/-- Every identity a value owns, however deeply; reaching one twice is refused. -/
def collectOwnedIdentities : ℕ → Value → Walk Unit
  | 0, _ => throw (invalid
      "a runtime ownership graph is nested more deeply than this milestone supports")
  | n + 1, value =>
    match value with
    | .resource handle => do
      let out ← get
      if handle.id ∈ out then
        throw (invalid ("a runtime ownership graph reaches the same resource identity twice, " ++
          "either duplicated or through a cycle"))
      set (out ++ [handle.id])
      let record ← liftM (t.record handle)
      record.fields.forM (collectOwnedIdentities n)
    | .record _ _ fields => fields.forM (collectOwnedIdentities n)
    | .variant _ _ _ payload => payload.forM (collectOwnedIdentities n)
    | _ => pure ()

/-- The identities a destination is traversed through, never the final field. -/
def destinationIdentities : Value → List Projection → Except InterpreterError (List ResourceId)
  | _, [] => pure []
  | container, first :: rest => do
    let index ← projectionIndex first
    match container with
    | .resource handle =>
      if rest.isEmpty then pure [handle.id]
      else
        let inner ← t.observeField handle index
        pure (handle.id :: (← destinationIdentities inner rest))
    | .record _ _ fields =>
      match fields[index]? with
      | none => throw (invalid "a place projects a field index out of range for this record")
      | some slot => if rest.isEmpty then pure [] else destinationIdentities slot rest
    | _ => pure []

/-- Reads the value at the final step without writing anything at any depth. -/
def observeProjections : Value → List Projection → Except InterpreterError Value
  | container, [] => pure container
  | container, first :: rest => do
    let index ← projectionIndex first
    match container with
    | .resource handle => observeProjections (← t.observeField handle index) rest
    | .record _ _ fields =>
      match fields[index]? with
      | none => throw (invalid "a place projects a field index out of range for this record")
      | some slot => observeProjections slot rest
    | .moved => throw (invalid "use of a field after it was already moved")
    | .dropped => throw (invalid "use of a field after it was already dropped")
    | other => throughNonAggregate other

end

/-- What a projection chain is about to be walked for. -/
inductive PathIntent where
  | take | store
  deriving DecidableEq, Repr

/-- The final step's own conditions, once the walk knows whether it crossed an
observer. -/
def validateFinalStep (slot : Value) (intent : PathIntent) (observed inResource : Bool) :
    Except InterpreterError Unit :=
  match intent with
  | .take => do
    if observed then
      throw (invalid "cannot transfer a field through a merely-observing resource handle")
    if slot.isTombstone then
      throw (invalid (if inResource then
        "transfer of a resource field that was already moved or dropped"
      else "transfer of a record field that was already moved or dropped"))
  | .store => do
    if observed then
      throw (invalid "cannot reinitialize a field through a merely-observing resource handle")
    if !slot.isTombstone then
      throw (invalid (if inResource then
        "cannot overwrite a resource field that still owns a live value"
      else "cannot overwrite a record field that still owns a live value"))

section
variable (t : ResourceTable)

/-- Validates a complete projection chain before any of it is applied. Once the
walk crosses an observing handle it stays crossed. -/
def validatePlacePath (intent : PathIntent) :
    ℕ → Value → List Projection → Bool → Except InterpreterError Unit
  | 0, _, _, _ =>
    throw (invalid "a place projects more deeply than this milestone supports")
  | _ + 1, _, [], _ => pure ()
  | n + 1, container, first :: rest, observed => do
    let index ← projectionIndex first
    match container with
    | .resource handle =>
      let record ← t.observe handle
      match record.fields[index]? with
      | none => throw (invalid "a place projects a field index out of range for this resource")
      | some inner =>
        let observed := observed || handle.role ≠ .owner
        if rest.isEmpty then validateFinalStep inner intent observed true
        else validatePlacePath intent n inner rest observed
    | .record _ _ fields =>
      match fields[index]? with
      | none => throw (invalid "a place projects a field index out of range for this record")
      | some inner =>
        if rest.isEmpty then validateFinalStep inner intent observed false
        else validatePlacePath intent n inner rest observed
    | .moved => throw (invalid "use of a field after it was already moved")
    | .dropped => throw (invalid "use of a field after it was already dropped")
    | other => throughNonAggregate other

/-- The read-only half of a structural store: every step reachable, the final
field a tombstone. -/
def validateStoreTarget : Value → List Projection → Except InterpreterError Unit
  | _, [] => throw (invalid "a structural store names no field to reinitialize")
  | container, first :: rest => do
    let index ← projectionIndex first
    match container with
    | .resource handle =>
      if handle.role ≠ .owner then
        throw (invalid "cannot reinitialize a field through a merely-observing resource handle")
      let inner ← t.observeField handle index
      if rest.isEmpty then
        if !inner.isTombstone then
          throw (invalid "cannot overwrite a resource field that still owns a live value")
      else validateStoreTarget inner rest
    | .record _ _ fields =>
      match fields[index]? with
      | none => throw (invalid "a place projects a field index out of range for this record")
      | some slot =>
        if rest.isEmpty then
          if !slot.isTombstone then
            throw (invalid "cannot overwrite a record field that still owns a live value")
        else validateStoreTarget slot rest
    | .moved => throw (invalid "a place reinitializes through a field that was already moved")
    | .dropped => throw (invalid "a place reinitializes through a field that was already dropped")
    | other => throughNonAggregate other

end

/-- A transfer not yet applied: every identity its roots carry, and the
generation each identity that crosses the boundary moves to. -/
structure StorePlan where
  reachable : List ResourceId := []
  transitions : List (ResourceId × ℕ) := []
  deriving Repr

abbrev Planning (α : Type) := StateT StorePlan (Except InterpreterError) α

section
variable (m : Module) (t : ResourceTable)

/-- Plans the transfer of a value and returns it rebuilt around the handles it
will own after the commit. -/
def planTransferInner : ℕ → Value → Planning Value
  | 0, _ =>
    throw (invalid "a runtime value is nested more deeply than this milestone supports")
  | n + 1, value =>
    match value with
    | .resource handle => do
      if handle.role ≠ .owner then
        throw (invalid "cannot transfer ownership through a merely-observing resource handle")
      let record ← liftM (t.record handle)
      if record.status = .dropped then
        throw (invalid "cannot transfer ownership of a resource that was already dropped")
      let plan ← get
      if handle.id ∈ plan.reachable then
        throw (invalid ("a structural store's own source carries the same resource identity " ++
          "more than once"))
      let ((), reachable) ← liftM ((record.fields.forM
        (collectOwnedIdentities t (Limits.maxGenericDepth - 1))).run
          (plan.reachable ++ [handle.id]))
      set ({ reachable := reachable,
             transitions := plan.transitions ++ [(handle.id, record.generation + 1)] } : StorePlan)
      pure (.resource ⟨handle.id, record.generation + 1, .owner, none⟩)
    | .record item typeArgs fields => do
      let declared ← liftM (recordFieldTypes m item typeArgs)
      if declared.length ≠ fields.length then
        throw (invalid ("a structural store's own source record carries a field count its " ++
          "declaration does not declare"))
      pure (.record item typeArgs (← fields.mapM (planTransferInner n)))
    | .variant item typeArgs case payload => do
      let declared ← liftM (casePayloadTypes m item typeArgs case)
      if declared.length ≠ payload.length then
        throw (invalid ("a structural store's own source variant carries a payload count its " ++
          "active case does not declare"))
      pure (.variant item typeArgs case (← payload.mapM (planTransferInner n)))
    | .moved => throw (invalid "transfer of a value that was already moved")
    | .dropped => throw (invalid "transfer of a value that was already destroyed")
    | other => pure other

/-- One root of a planned operation. The leases are asked about once for each
root, over everything the plan holds by then. -/
def planTransfer (value : Value) : Planning Value := do
  let rebuilt ← planTransferInner m t Limits.maxGenericDepth value
  liftM (rejectLeasedIdentities t (← get).reachable "transferred")
  pure rebuilt

/-- What a destruction has collected: the identities it has reached and the
handles it will destroy, in order. -/
abbrev Destroying (α : Type) :=
  StateT (List ResourceId × List ResourceHandle) (Except InterpreterError) α

/-- The live affine positions of an aggregate in reverse declaration order. -/
def planDropFields (planOne : Value → Destroying Unit) (fields : List Value)
    (declared : List Ty) : Destroying Unit :=
  (fields.zip declared).reverse.forM fun p =>
    if !isAffine m p.2 || p.1.isTombstone then pure () else planOne p.1

/-- The handles a destruction visits, in the order they are destroyed: live
affine fields in reverse declaration order, an outer identity after its own. -/
def planDrop : ℕ → Value → Destroying Unit
  | 0, _ => throw (invalid
      "a destruction graph is nested more deeply than this milestone supports")
  | n + 1, value =>
    match value with
    | .resource handle => do
      if handle.role ≠ .owner then
        throw (invalid "cannot drop a resource through a merely-observing resource handle")
      let (seen, plan) ← get
      if handle.id ∈ seen then
        throw (invalid "a destruction graph reaches the same resource identity twice")
      set (seen ++ [handle.id], plan)
      let record ← liftM (t.observe handle)
      let declared ← liftM (recordFieldTypes m record.item [])
      if declared.length ≠ record.fields.length then
        throw (invalid "a runtime resource's own field count disagrees with its declaration")
      planDropFields m (planDrop n) record.fields declared
      modify fun s => (s.1, s.2 ++ [handle])
    | .record item typeArgs fields => do
      let declared ← liftM (recordFieldTypes m item typeArgs)
      if declared.length ≠ fields.length then
        throw (invalid "a runtime record value's own field count disagrees with its declaration")
      planDropFields m (planDrop n) fields declared
    | .variant item typeArgs case payload => do
      let declared ← liftM (casePayloadTypes m item typeArgs case)
      if declared.length ≠ payload.length then
        throw (invalid ("a runtime variant value's own payload count disagrees with its active " ++
          "case's declaration"))
      planDropFields m (planDrop n) payload declared
    | .moved => throw (invalid "drop of a field that was already moved")
    | .dropped => throw (invalid "double drop: this value was already destroyed")
    | other => throw (invalid ("drop of a non-affine value (" ++ kindName other ++ ")"))

end

section
variable (t : ResourceTable)

/-- Rebuilds a value with every handle in it bound to the lease. -/
def toLeasedView (lease : RuntimeObservationId) : ℕ → Value → Except InterpreterError Value
  | 0, _ =>
    throw (invalid "a runtime value is nested more deeply than this milestone supports")
  | n + 1, value =>
    match value with
    | .resource handle => do pure (.resource (← t.toLeasedObserver handle lease))
    | .record item typeArgs fields => do
      pure (.record item typeArgs (← fields.mapM (toLeasedView lease n)))
    | .variant item typeArgs case payload => do
      pure (.variant item typeArgs case (← payload.mapM (toLeasedView lease n)))
    | other => pure other

/-- Rebuilds a value with every handle in it downgraded to an observer. -/
def toObservingView : ℕ → Value → Except InterpreterError Value
  | 0, _ =>
    throw (invalid "a runtime value is nested more deeply than this milestone supports")
  | n + 1, value =>
    match value with
    | .resource handle => do pure (.resource (← t.toObserver handle))
    | .record item typeArgs fields => do
      pure (.record item typeArgs (← fields.mapM (toObservingView n)))
    | .variant item typeArgs case payload => do
      pure (.variant item typeArgs case (← payload.mapM (toObservingView n)))
    | other => pure other

def toObserverIfResource (value : Value) : Except InterpreterError Value :=
  toObservingView t Limits.maxGenericDepth value

/-- Short-circuiting `any` over a list, threading the identities seen so far. -/
private def anyOwned (owns : Value → List ResourceId → Bool × List ResourceId) :
    List Value → List ResourceId → Bool × List ResourceId
  | [], seen => (false, seen)
  | value :: rest, seen =>
    match owns value seen with
    | (true, seen) => (true, seen)
    | (false, seen) => anyOwned owns rest seen

/-- Whether a value still owns any live resource that is not leaving with
`exiting`. Below the depth limit the answer is `false`. -/
def ownsALiveResource (exiting : List ResourceId) :
    ℕ → Value → List ResourceId → Bool × List ResourceId
  | 0, _, seen => (false, seen)
  | n + 1, value, seen =>
    match value with
    | .resource handle =>
      if handle.role ≠ .owner ∨ handle.id ∈ exiting ∨ handle.id ∈ seen then (false, seen)
      else
        match t.record handle with
        | .ok record =>
          if record.status = .alive then (true, seen ++ [handle.id])
          else anyOwned (ownsALiveResource exiting n) record.fields (seen ++ [handle.id])
        | .error _ => (false, seen ++ [handle.id])
    | .record _ _ fields => anyOwned (ownsALiveResource exiting n) fields seen
    | .variant _ _ _ payload => anyOwned (ownsALiveResource exiting n) payload seen
    | _ => (false, seen)

def ownsLive (exiting : List ResourceId) (value : Value) : Bool :=
  (ownsALiveResource t exiting Limits.maxGenericDepth value []).1

/-- The lowest value of an exiting frame that still owns something, leaving out
the parameters the frame only observes. -/
def leakedResource (values : Values) (observingParams : List ValueId)
    (exiting : List ResourceId) : Option ValueId :=
  let candidates := values.entries.filter fun e => e.1 ∉ observingParams
  ((candidates.insertionSort fun a b => a.1.index ≤ b.1.index).find?
    fun e => ownsLive t exiting e.2).map (·.1)

end

end Napitia.Interpreter

import Napitia.Nir

/-!
# Runtime values and the resource table

A `resource` value is never more than a handle into one table of records, so
that copying a value duplicates the handle and never the resource. A transfer of
ownership bumps the record's generation, which leaves every older handle stale;
an observation opens a lease, and a handle minted under a lease stops resolving
when that lease ends.

Operations that only read are functions into `Except`. Operations that write are
actions of `EStateM`, where a failing action keeps whatever it had already
written: nothing is rolled back unless the source rolls it back. Identities,
generations and lease numbers are natural numbers, so that the wrap-around of
the source's `u32` and `u64` counters is not modelled.
-/
namespace Napitia.Interpreter
open Nir

structure ResourceId where
  index : ℕ
  deriving DecidableEq, Repr

inductive RuntimeOwnershipRole where
  | owner | observer
  deriving DecidableEq, Repr

structure RuntimeObservationId where
  index : ℕ
  deriving DecidableEq, Repr

structure ResourceHandle where
  id : ResourceId
  generation : ℕ
  role : RuntimeOwnershipRole
  lease : Option RuntimeObservationId
  deriving DecidableEq, Repr

inductive Value where
  | int (value : Numeric.I64)
  | float (value : F64)
  | bool (value : Bool)
  | char (value : Char)
  | str (value : String)
  | unit
  | record (item : ItemId) (typeArgs : List Ty) (fields : List Value)
  | variant (item : ItemId) (typeArgs : List Ty) (case : ℕ) (payload : List Value)
  | resource (handle : ResourceHandle)
  | moved
  | dropped
  deriving Repr

mutual

/-- Equality of values as the source derives it: structural, with floats
compared by IEEE equality. -/
def Value.eqv : Value → Value → Bool
  | .int a, .int b => a == b
  | .float a, .float b => a.eq b
  | .bool a, .bool b => a == b
  | .char a, .char b => a == b
  | .str a, .str b => a == b
  | .unit, .unit => true
  | .record i ts as, .record j us bs => i = j && ts = us && Value.eqvList as bs
  | .variant i ts c as, .variant j us d bs => i = j && ts = us && c = d && Value.eqvList as bs
  | .resource a, .resource b => a = b
  | .moved, .moved => true
  | .dropped, .dropped => true
  | _, _ => false

def Value.eqvList : List Value → List Value → Bool
  | [], [] => true
  | a :: as, b :: bs => Value.eqv a b && Value.eqvList as bs
  | _, _ => false

end

/-- A tombstone stands where ownership was moved out or destroyed. -/
def Value.isTombstone : Value → Bool
  | .moved | .dropped => true
  | _ => false

inductive InterpreterError where
  | arithmetic (failure : Numeric.ArithFailure)
  | invalidOperation (message : String)
  deriving DecidableEq, Repr

def InterpreterError.code : InterpreterError → String
  | .arithmetic failure => failure.code
  | .invalidOperation _ => "X0004"

def invalid (message : String) : InterpreterError := .invalidOperation message

inductive LeaseStatus where
  | active | ended
  deriving DecidableEq, Repr

structure RuntimeObservation where
  id : RuntimeObservationId
  status : LeaseStatus
  observed : List ResourceId
  parent : Option RuntimeObservationId
  deriving DecidableEq, Repr

inductive ResourceStatus where
  | alive | dropped
  deriving DecidableEq, Repr

structure ResourceRecord where
  item : ItemId
  generation : ℕ
  status : ResourceStatus
  fields : List Value
  deriving Repr

structure ResourceTable where
  records : List ResourceRecord := []
  leases : List RuntimeObservation := []
  active : List RuntimeObservationId := []
  deriving Repr

/-- An action over state `σ` that may be refused part of the way through. -/
abbrev Op (σ α : Type) := EStateM InterpreterError σ α

namespace ResourceTable
variable (t : ResourceTable)

def construct (item : ItemId) (fields : List Value) : ResourceHandle × ResourceTable :=
  (⟨⟨t.records.length⟩, 0, .owner, none⟩,
    { t with records := t.records ++ [⟨item, 0, .alive, fields⟩] })

def leaseMark : ℕ := t.leases.length

def setLeaseStatus (id : RuntimeObservationId) (status : LeaseStatus) : ResourceTable :=
  { t with leases := t.leases.modify id.index fun lease => { lease with status := status } }

/-- The innermost lease a frame still holds is the last of the active list, so
this walks the list from its end and stops at the first lease below the mark. -/
def abandonLeasesFrom (mark : ℕ) : ResourceTable :=
  (t.active.reverse.takeWhile fun id => mark ≤ id.index).foldl
    (fun table id => { table.setLeaseStatus id .ended with active := table.active.dropLast }) t

def reservedLeaseId : RuntimeObservationId := ⟨t.leases.length⟩

def lease (id : RuntimeObservationId) : Except InterpreterError RuntimeObservation :=
  match t.leases[id.index]? with
  | some lease => .ok lease
  | none => .error (invalid "an observation handle does not refer to any known observation")

/-- The leases now open, in the order of the active list. -/
def openLeases : List RuntimeObservation :=
  t.active.filterMap fun id => t.leases[id.index]?

/-- The lowest-numbered active lease that holds the resource. -/
def activeLeaseHolding (resource : ResourceId) : Option RuntimeObservationId :=
  (t.openLeases.find? fun lease => resource ∈ lease.observed).map (·.id)

/-- A handle minted under an observation stops working when it ends. -/
def checkLease (handle : ResourceHandle) : Except InterpreterError Unit :=
  match handle.lease with
  | none => pure ()
  | some id => do
    if (← t.lease id).status = .ended then
      throw (invalid "use of an observation after its own `observe` block already ended")

/-- The record a handle names, at the generation it was minted for. -/
def currentRecord (handle : ResourceHandle) : Except InterpreterError ResourceRecord :=
  match t.records[handle.id.index]? with
  | none => throw (invalid "resource handle does not refer to any known resource")
  | some record =>
    if record.generation ≠ handle.generation then
      throw (invalid ("stale resource handle: this resource's own ownership was already " ++
        "transferred elsewhere"))
    else pure record

def record (handle : ResourceHandle) : Except InterpreterError ResourceRecord := do
  t.checkLease handle
  t.currentRecord handle

def observe (handle : ResourceHandle) : Except InterpreterError ResourceRecord := do
  let record ← t.record handle
  if record.status = .dropped then
    throw (invalid "use of a resource after it was already dropped")
  else pure record

def toObserver (handle : ResourceHandle) : Except InterpreterError ResourceHandle := do
  let _ ← t.observe handle
  pure { handle with role := .observer }

def toLeasedObserver (handle : ResourceHandle) (lease : RuntimeObservationId) :
    Except InterpreterError ResourceHandle := do
  let _ ← t.observe handle
  pure { handle with role := .observer, lease := some lease }

/-- The observing view of a stored value: every handle in it, at any inline
depth, becomes an observer and is bound to the lease when there is one. -/
def observingView (lease : Option RuntimeObservationId) :
    ℕ → Value → Except InterpreterError Value
  | 0, _ =>
    throw (invalid "a runtime value is nested more deeply than this milestone supports")
  | n + 1, value =>
    match value with
    | .resource inner => do
      match lease with
      | some lease => pure (.resource (← t.toLeasedObserver inner lease))
      | none => pure (.resource (← t.toObserver inner))
    | .record item typeArgs fields => do
      pure (.record item typeArgs (← fields.mapM (observingView lease n)))
    | .variant item typeArgs case payload => do
      pure (.variant item typeArgs case (← payload.mapM (observingView lease n)))
    | other => pure other

def observeField (handle : ResourceHandle) (index : ℕ) : Except InterpreterError Value := do
  let record ← t.observe handle
  match record.fields[index]? with
  | none => throw (invalid "a place projects a field index out of range for this resource")
  | some field =>
    match handle.role with
    | .observer => t.observingView handle.lease Limits.maxGenericDepth field
    | .owner => pure field

/-- The table with one stored field of one record replaced. -/
def writeField (id : ResourceId) (index : ℕ) (value : Value) : ResourceTable :=
  { t with records := t.records.modify id.index fun r =>
      { r with fields := r.fields.set index value } }

def setStatus (id : ResourceId) (status : ResourceStatus) : ResourceTable :=
  { t with records := t.records.modify id.index fun r => { r with status := status } }

def setGeneration (id : ResourceId) (generation : ℕ) : ResourceTable :=
  { t with records := t.records.modify id.index fun r => { r with generation := generation } }

end ResourceTable

/-- Installs a lease reserved earlier, refusing an identity no longer free. -/
def commitLease (id : RuntimeObservationId) (observed : List ResourceId)
    (parent : Option RuntimeObservationId) : Op ResourceTable Unit := do
  let t ← get
  if id.index ≠ t.leases.length then
    throw (invalid
      "an observation lease was committed against an identity that is no longer free")
  set ({ t with
    leases := t.leases ++ [⟨id, .active, observed, parent⟩],
    active := t.active ++ [id] } : ResourceTable)

def endLease (id : RuntimeObservationId) : Op ResourceTable Unit := do
  let t ← get
  let lease ← liftExcept (t.lease id)
  if lease.status = .ended then
    throw (invalid "an observation was ended more than once at run time")
  if t.openLeases.any fun other => other.parent = some id then
    throw (invalid
      "cannot end an observation while an observation opened inside it is still active")
  set { t.setLeaseStatus id .ended with active := t.active.filter (· ≠ id) }

def dropResource (handle : ResourceHandle) : Op ResourceTable Unit := do
  if handle.role ≠ .owner then
    throw (invalid "cannot drop a resource through a merely-observing resource handle")
  let t ← get
  let record ← liftExcept (t.record handle)
  if record.status = .dropped then
    throw (invalid "double drop of a resource")
  set (t.setStatus handle.id .dropped)

def takeField (handle : ResourceHandle) (index : ℕ) : Op ResourceTable Value := do
  if handle.role ≠ .owner then
    throw (invalid "cannot transfer a field through a merely-observing resource handle")
  let t ← get
  let record ← liftExcept (t.observe handle)
  match record.fields[index]? with
  | none => throw (invalid "a place projects a field index out of range for this resource")
  | some field =>
    set (t.writeField handle.id index .moved)
    pure field

/-- The user-facing reinitialization of a field, which must be a tombstone. -/
def setField (handle : ResourceHandle) (index : ℕ) (value : Value) : Op ResourceTable Unit := do
  if handle.role ≠ .owner then
    throw (invalid "cannot reinitialize a field through a merely-observing resource handle")
  let t ← get
  let record ← liftExcept (t.observe handle)
  match record.fields[index]? with
  | none => throw (invalid "a place projects a field index out of range for this resource")
  | some slot =>
    if !slot.isTombstone then
      throw (invalid "cannot overwrite a resource field that still owns a live value")
    set (t.writeField handle.id index value)

/-- The write-back of a container a place traversal passed through. -/
def restoreField (handle : ResourceHandle) (index : ℕ) (container : Value) :
    Op ResourceTable Unit := do
  if handle.role ≠ .owner then
    throw (invalid "cannot write through a merely-observing resource handle")
  let t ← get
  let record ← liftExcept (t.observe handle)
  match record.fields[index]? with
  | none => throw (invalid "a place projects a field index out of range for this resource")
  | some _ => set (t.writeField handle.id index container)

end Napitia.Interpreter

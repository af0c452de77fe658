import Mathlib.Data.List.Dedup
import Napitia.Resourceck.State

/-!
# Where paths meet

The states recorded at the ends of the reachable branches of a construct become one
state after it, place by place, and so do the states at the exits of a loop. A place an
edge records nothing for counts as what the entry of the construct recorded for it.
-/
namespace Napitia.Resourceck
open Nir Lower

namespace Codes

def inconsistentBranchState : String := "U0006"
def loopCarriedInvalidation : String := "U0007"

end Codes

/-- The locals the entry of a construct tracks. -/
def trackedRoots (entry : PlaceStates) : List LocalId := entry.keys.map (·.root)

/-- The keys of a state whose roots the entry tracks. -/
def trackedKeys (entry states : PlaceStates) : List LocalPlace :=
  states.keys.filter (·.root ∈ trackedRoots entry)

/-- What an edge records for a key, or else what the entry does. -/
def defaultFor (entry states : PlaceStates) (key : LocalPlace) : ResourceState :=
  (states.lookup key).getD (recorded entry key)

/-- The reachable branches among those of a construct. -/
def reachableBranches (branches : List (PlaceStates × Bool)) : List PlaceStates :=
  (branches.filter fun branch => !branch.2).map (·.1)

def joinBranchStates (entry : PlaceStates) (branches : List (PlaceStates × Bool)) : PlaceStates :=
  match reachableBranches branches with
  | [] => entry
  | first :: rest =>
    let keys := (entry.keys ++ (first :: rest).flatMap (trackedKeys entry)).dedup
    rest.foldl
      (fun joined other => joined.mapValues fun key state => state.join (defaultFor entry other key))
      (AList.tabulate keys (defaultFor entry first))

/-- Every key that is compared at the top of a loop. -/
def compareKeys (entry : PlaceStates) (backedges : List PlaceStates) : List LocalPlace :=
  (entry.keys ++ backedges.flatMap (trackedKeys entry)).dedup

/-- The keys that some back edge records differently than the entry does. -/
def poisonedKeys (entry : PlaceStates) (backedges : List PlaceStates) : List LocalPlace :=
  (compareKeys entry backedges).filter fun key =>
    recorded entry key ≠ .error ∧ backedges.any fun backedge =>
      defaultFor entry backedge key ≠ recorded entry key ∧ defaultFor entry backedge key ≠ .error

/-- One more exit of a loop joined in, with the keys it disagrees about. -/
def joinExit (entry : PlaceStates) (poisoned : List LocalPlace)
    (acc : PlaceStates × List LocalPlace) (other : PlaceStates) : PlaceStates × List LocalPlace :=
  (acc.1.mapValues fun key current =>
      if key ∈ poisoned then current else current.join (defaultFor entry other key),
    acc.2 ∪ acc.1.keys.filter fun key =>
      key ∉ poisoned ∧ recorded acc.1 key ≠ .error ∧
        (recorded acc.1 key).join (defaultFor entry other key) = .error)

/-- The states that reach the top of a loop again. -/
def LoopFrame.backedges (frame : LoopFrame) (fallthroughReachable : Bool)
    (fallthroughState : PlaceStates) : List PlaceStates :=
  frame.continueStates ++ if fallthroughReachable then [fallthroughState] else []

/-- The state after a loop, and the codes of what is reported about it. -/
def finishLoop (entry : PlaceStates) (afterBase : Option PlaceStates) (frame : LoopFrame)
    (fallthroughReachable : Bool) (fallthroughState : PlaceStates) : PlaceStates × List String :=
  let backedges := frame.backedges fallthroughReachable fallthroughState
  let poisoned := poisonedKeys entry backedges
  let carried := poisoned.map fun _ => Codes.loopCarriedInvalidation
  match frame.breakStates ++ afterBase.toList with
  | [] => (entry, carried)
  | first :: rest =>
    let afterKeys := (compareKeys entry backedges ++ (first :: rest).flatMap (trackedKeys entry)).dedup
    let after := poisoned.foldl (fun after key => after.insert key .error)
      (AList.tabulate afterKeys (defaultFor entry first))
    let joined := rest.foldl (joinExit entry poisoned) (after, [])
    (joined.1, carried ++ joined.2.map fun _ => Codes.inconsistentBranchState)

end Napitia.Resourceck

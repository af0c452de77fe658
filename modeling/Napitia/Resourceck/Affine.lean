import Napitia.Typeck.Affine

/-!
# Transitive affinity in the ownership checker

The ownership checker answers the same question again from the declarations alone:
once for every plain declaration of the module, in whatever order their table yields
them, and then for each type from that set. Neither walk counts its depth, so both
take fuel here.
-/
namespace Napitia.Resourceck
open Typeck

/-- One plain declaration, its fields answered for by `ask`. -/
def isAffineItem (A : AffineContext)
    (ask : Ty → List ItemId → StateT AffineMemo Option Bool) (item : ItemId)
    (visiting : List ItemId) : StateT AffineMemo Option Bool := do
  match (← get).lookup item with
  | some cached => pure cached
  | none =>
    if A.declaredResource item then
      modify fun memo => memo.insert item true
      pure true
    else if item ∈ visiting then pure false
    else
      let result ← (A.fieldTypes item).anyM fun fty => ask fty (item :: visiting)
      modify fun memo => memo.insert item result
      pure result

/-- `visiting` holds every declaration on the path, instantiated or not. -/
def isAffineTy (A : AffineContext) : ℕ → Ty → List ItemId → StateT AffineMemo Option Bool
  | 0, _, _ => failure
  | n + 1, .named item, visiting => isAffineItem A (isAffineTy A n) item visiting
  | n + 1, .applied item args, visiting =>
    if A.declaredResource item then pure true
    else if item ∈ visiting then pure false
    else
      match (A.itemTypeParams item).bind (checkedSubstitution · args) with
      | none => pure true
      | some subst => (A.fieldTypes item).anyM fun fty =>
          isAffineTy A n (substitute fty subst) (item :: visiting)
  | _ + 1, _, _ => pure false

/-- The affine declarations among the keys, answered for in their order. -/
def computeAffineItems (A : AffineContext) (fuel : ℕ) (keys : List ItemId) :
    Option (List ItemId) :=
  ((keys.filterM fun item => isAffineItem A (isAffineTy A fuel) item []).run ∅).map (·.1)

/-- The flow checker's own query, which trusts the set of affine declarations. -/
def isAffine (A : AffineContext) (affineItems : List ItemId) : ℕ → Ty → Option Bool
  | 0, _ => none
  | _ + 1, .named item => some (item ∈ affineItems)
  | n + 1, .applied item args =>
    if A.declaredResource item then some true
    else
      match (A.itemTypeParams item).bind (checkedSubstitution · args) with
      | none => some true
      | some subst => (A.fieldTypes item).anyM fun fty =>
          isAffine A affineItems n (substitute fty subst)
  | _ + 1, _ => some false

end Napitia.Resourceck

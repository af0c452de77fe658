import Napitia.Nir
import Napitia.Substitution

/-!
# Transitive affinity at declaration time

The checker answers whether a type is affine from the declarations it collected,
remembers the answer for every plain declaration, and hands the declarations on to
the ownership checker.
-/
namespace Napitia.Typeck

/-- What the affinity queries read of the declarations: the field and payload types
of every aggregate, which are resources, and every item's own parameters. -/
structure AffineContext where
  aggregateFieldTypes : ItemId → Option (List Ty)
  declaredResource : ItemId → Bool
  itemTypeParams : ItemId → Option (List TypeParamId)

def AffineContext.fieldTypes (A : AffineContext) (item : ItemId) : List Ty :=
  (A.aggregateFieldTypes item).getD []

/-- The declarations of a module. -/
def affineContext (m : Nir.Module) : AffineContext where
  aggregateFieldTypes item :=
    match m.findRecord item with
    | some record => some (record.fields.map (·.2))
    | none => (m.findVariant item).map fun variant => variant.cases.flatMap (·.payload)
  declaredResource item := ((m.findRecord item).map (·.affine)).getD false
  itemTypeParams item :=
    ((m.findRecord item).map fun r => r.typeParams.map (·.1)) <|>
      ((m.findVariant item).map fun v => v.typeParams.map (·.1))

/-- Answers remembered for plain declarations. -/
abbrev AffineMemo := AList (fun _ : ItemId => Bool)

/-- The budget is what remains of the generic depth limit, and `visiting` the plain
declarations being answered for. -/
def isAffineVisiting (A : AffineContext) : ℕ → Ty → List ItemId → StateM AffineMemo Bool
  | 0, _, _ => pure false
  | n + 1, .named item, visiting => do
    match (← get).lookup item with
    | some cached => pure cached
    | none =>
      if item ∈ visiting then pure false
      else
        let result ←
          if A.declaredResource item then pure true
          else (A.fieldTypes item).anyM fun fty => isAffineVisiting A n fty (item :: visiting)
        modify fun memo => memo.insert item result
        pure result
  | n + 1, .applied item args, visiting =>
    if A.declaredResource item then pure true
    else
      match (A.itemTypeParams item).bind (checkedSubstitution · args) with
      | none => pure true
      | some subst => (A.fieldTypes item).anyM fun fty =>
          isAffineVisiting A n (substitute fty subst) visiting
  | _ + 1, _, _ => pure false

def isAffine (A : AffineContext) (ty : Ty) : StateM AffineMemo Bool :=
  isAffineVisiting A Limits.maxGenericDepth ty []

/-- The answers to queries made one after the other, from an empty memo. -/
def affineAnswers (A : AffineContext) (queries : List Ty) : List Bool :=
  ((queries.mapM (isAffine A)).run ∅).1

end Napitia.Typeck

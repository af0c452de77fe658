import Napitia.Verify.Checks

/-!
# Transitive affinity in the verifier

The verifier trusts no earlier stage's answer and asks the module's own layouts.
-/
namespace Napitia.Verify

/-- An item's declared parameters paired with the arguments it is applied to. -/
def itemSubstitution (agg : AggregateContext) (item : ItemId) (args : List Ty) : Option Subst :=
  match agg.records item with
  | some record => checkedSubstitution (record.typeParams.map (·.1)) args
  | none =>
    match agg.variants item with
    | some variant => checkedSubstitution (variant.typeParams.map (·.1)) args
    | none => if args = [] then some ∅ else none

def fieldTypes (agg : AggregateContext) (item : ItemId) : List Ty :=
  match agg.records item with
  | some record => record.fields.map (·.2)
  | none =>
    match agg.variants item with
    | some variant => variant.cases.flatMap (·.payload)
    | none => []

/-- Only a plain declaration is guarded by `visiting`; an instantiation is bounded
by the budget, what remains of the generic depth limit. -/
def isAffineInVisiting (agg : AggregateContext) : ℕ → Ty → List ItemId → Bool
  | 0, _, _ => false
  | n + 1, .named item, visiting =>
    if ((agg.records item).map (·.affine)).getD false then true
    else if item ∈ visiting then false
    else
      match itemSubstitution agg item [] with
      | none => true
      | some subst => (fieldTypes agg item).any fun fty =>
          isAffineInVisiting agg n (substitute fty subst) (item :: visiting)
  | n + 1, .applied item args, visiting =>
    if ((agg.records item).map (·.affine)).getD false then true
    else
      match itemSubstitution agg item args with
      | none => true
      | some subst => (fieldTypes agg item).any fun fty =>
          isAffineInVisiting agg n (substitute fty subst) visiting
  | _ + 1, _, _ => false

def isAffineIn (agg : AggregateContext) (ty : Ty) : Bool :=
  isAffineInVisiting agg Limits.maxGenericDepth ty []

end Napitia.Verify

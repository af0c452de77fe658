import Napitia.Lib.Effect
import Napitia.Substitution

/-!
# Unification

The inference context of one module: a table of what each type variable is
bound to and of the kind of literal it stands for. Unifying two types binds
variables as it descends, and a unification that fails gives back the context
it was handed.
-/
namespace Napitia.Typeck

inductive VarKind where
  | integer | float
  deriving DecidableEq, Repr

structure TypeContext where
  substitutions : List (Option Ty) := []
  kinds : List (Option VarKind) := []
  deriving Repr

abbrev Unify := EStateM (Ty × Ty) TypeContext

namespace TypeContext

def freshVarWithKind (kind : Option VarKind) (ctx : TypeContext) : TyVar × TypeContext :=
  (⟨ctx.substitutions.length⟩, ⟨ctx.substitutions ++ [none], ctx.kinds ++ [kind]⟩)

def lookup (ctx : TypeContext) (v : TyVar) : Option Ty := (ctx.substitutions[v.index]?).join

def kindOf (ctx : TypeContext) (v : TyVar) : Option VarKind := (ctx.kinds[v.index]?).join

def setKind (ctx : TypeContext) (v : TyVar) (kind : Option VarKind) : TypeContext :=
  { ctx with kinds := ctx.kinds.set v.index kind }

def bind (ctx : TypeContext) (v : TyVar) (ty : Ty) : TypeContext :=
  { ctx with substitutions := ctx.substitutions.set v.index (some ty) }

/-- A type followed through the table for as many turns of the loop as remain. -/
def resolveFrom (ctx : TypeContext) : ℕ → Ty → Ty
  | 0, ty => ty
  | n + 1, .var v =>
    match ctx.lookup v with
    | some next => ctx.resolveFrom n next
    | none => .var v
  | _ + 1, ty => ty

/-- The loop that follows a type to one that is not a bound variable. It is given
one turn more than there are variables, and `Context.resolve_settled` says that
it has ended by then. -/
def resolve (ctx : TypeContext) (ty : Ty) : Ty :=
  ctx.resolveFrom (ctx.substitutions.length + 1) ty

end TypeContext

/-- A type resolved at every level, as deep as the depth that remains. -/
def deepResolveAtDepth (ctx : TypeContext) : ℕ → Ty → Ty
  | 0, ty => ctx.resolve ty
  | n + 1, ty =>
    match ctx.resolve ty with
    | .applied item args => .applied item (args.map (deepResolveAtDepth ctx n))
    | other => other

def deepResolve (ctx : TypeContext) (ty : Ty) : Ty :=
  deepResolveAtDepth ctx Limits.maxGenericDepth ty

/-- Whether a variable occurs in a type; past the depth that remains it is taken
to. -/
def occurs (ctx : TypeContext) (var : TyVar) : ℕ → Ty → Bool
  | 0, _ => true
  | n + 1, ty =>
    match ctx.resolve ty with
    | .var v => v = var
    | .applied _ args => args.any (occurs ctx var n)
    | _ => false

def isInteger : Ty → Bool
  | .i8 | .i16 | .i32 | .i64 | .isize | .u8 | .u16 | .u32 | .u64 | .usize => true
  | _ => false

def kindAllows (ctx : TypeContext) (var : TyVar) (target : Ty) : Bool :=
  match ctx.kindOf var with
  | some .integer => isInteger target
  | some .float => target = .f32 || target = .f64
  | none => true

def mergeVars (va vb : TyVar) (a b : Ty) : Unify Unit := do
  let ctx ← get
  match ctx.kindOf va, ctx.kindOf vb with
  | some x, some y =>
    if x ≠ y then throw (a, b) else set ((ctx.bind va b).setKind vb (some x))
  | some x, none => set ((ctx.bind va b).setKind vb (some x))
  | none, y => set ((ctx.bind va b).setKind vb y)

/-- A variable bound to a type that is not a variable; `mismatch` is what a
refusal hands back. -/
def bindVar (v : TyVar) (ty : Ty) (mismatch : Ty × Ty) : Unify Unit := do
  let ctx ← get
  if occurs ctx v (Limits.maxGenericDepth + 1) ty then throw mismatch
  else if kindAllows ctx v ty then set (ctx.bind v ty)
  else throw mismatch

def unifyAtDepth : ℕ → Ty → Ty → Unify Unit
  | n, a, b => do
    let ctx ← get
    let a := ctx.resolve a
    let b := ctx.resolve b
    if a = b then pure ()
    else
      match a, b with
      | .error, _ => pure ()
      | _, .error => pure ()
      | .never, _ => pure ()
      | _, .never => pure ()
      | .var va, .var vb => mergeVars va vb a b
      | .var v, _ => bindVar v b (a, b)
      | _, .var v => bindVar v a (a, b)
      | .applied aItem aArgs, .applied bItem bArgs =>
        if aItem ≠ bItem ∨ aArgs.length ≠ bArgs.length then throw (a, b)
        else match n with
          | 0 => throw (a, b)
          | n + 1 => (aArgs.zip bArgs).forM fun p => unifyAtDepth n p.1 p.2
      | _, _ => throw (a, b)

/-- A failing unification restores the checkpoint it took. -/
def unify (a b : Ty) : Unify Unit := fun ctx =>
  match unifyAtDepth Limits.maxGenericDepth a b ctx with
  | .ok _ ctx' => .ok ⟨⟩ ctx'
  | .error mismatch _ => .error mismatch ctx

/-! ### Runs of the context -/

/-- Every variable of a type has a slot in the table, and nothing in it unifies
with whatever it meets. -/
structure Plain (ctx : TypeContext) (ty : Ty) : Prop where
  allocated : ∀ v, .var v ∈ ty.leaves → v.index < ctx.substitutions.length
  noError : .error ∉ ty.leaves
  noNever : .never ∉ ty.leaves

/-- One operation on the context: a variable allocated, or two types unified,
whether or not they can be. -/
inductive Operation : TypeContext → TypeContext → Prop
  | fresh (ctx : TypeContext) (kind : Option VarKind) :
    Operation ctx (ctx.freshVarWithKind kind).2
  | unified {ctx ctx' : TypeContext} {a b : Ty} : Plain ctx a → Plain ctx b →
    unify a b ctx = .ok ⟨⟩ ctx' → Operation ctx ctx'
  | refused {ctx ctx' : TypeContext} {a b : Ty} {mismatch : Ty × Ty} : Plain ctx a →
    Plain ctx b → unify a b ctx = .error mismatch ctx' → Operation ctx ctx'

/-- What a context becomes by any sequence of operations. -/
def Later : TypeContext → TypeContext → Prop := Relation.ReflTransGen Operation

end Napitia.Typeck

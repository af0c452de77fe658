import Mathlib
import Napitia.Lower.Decision
import Napitia.Parser.Syntax

/-!
# The scopes of a function body

Of the lowering of a body only what it asks of the scopes is kept: which names it looks up, which
it defines, and where a scope opens and closes. What a name refers to follows from the local it is
found as and from the names of the module.
-/
namespace Napitia.Hir.Scoping
open Lower (LocalId)
open Napitia.Parser

abbrev Frame := List (String × LocalId)

/-- The innermost frame and the ones around it. A later entry of a frame replaces an earlier. -/
structure Scopes where
  frame : Frame
  outer : List Frame

namespace Scopes

def push (s : Scopes) : Scopes := ⟨[], s.frame :: s.outer⟩

/-- The outermost frame is never popped. -/
def pop (s : Scopes) : Scopes :=
  match s.outer with
  | [] => ⟨[], []⟩
  | frame :: outer => ⟨frame, outer⟩

def define (s : Scopes) (name : String) (id : LocalId) : Scopes := ⟨(name, id) :: s.frame, s.outer⟩

def lookup (s : Scopes) (name : String) : Option LocalId :=
  (s.frame :: s.outer).findSome? fun frame => frame.lookup name

variable (s : Scopes) {x y : String}

@[simp] theorem lookup_push : s.push.lookup x = s.lookup x := by
  simp [push, lookup, List.findSome?_cons]

@[simp] theorem lookup_define_self (id : LocalId) : (s.define x id).lookup x = some id := by
  simp [define, lookup]

theorem lookup_define_of_ne (id : LocalId) (h : x ≠ y) : (s.define y id).lookup x = s.lookup x := by
  have hbeq : (x == y) = false := by simpa using h
  simp [define, lookup, List.findSome?_cons, List.lookup, hbeq]

end Scopes

/-- The scopes of a function body under lowering, with the next local to mint. Every local in
scope has been minted. -/
structure Resolver where
  scopes : Scopes
  nextLocal : ℕ
  minted : ∀ frame ∈ scopes.frame :: scopes.outer, ∀ entry ∈ frame, entry.2.index < nextLocal

namespace Resolver

def push (r : Resolver) : Resolver where
  scopes := r.scopes.push
  nextLocal := r.nextLocal
  minted := by
    intro frame hframe
    rcases List.mem_cons.mp hframe with rfl | hframe
    · intro entry hentry
      cases hentry
    · exact r.minted frame hframe

def pop (r : Resolver) : Resolver where
  scopes := r.scopes.pop
  nextLocal := r.nextLocal
  minted := by
    intro frame hframe
    cases houter : r.scopes.outer with
    | nil =>
      simp only [Scopes.pop, houter, List.mem_singleton] at hframe
      subst hframe
      intro entry hentry
      cases hentry
    | cons first outer =>
      simp only [Scopes.pop, houter] at hframe
      exact r.minted frame (List.mem_cons_of_mem _ (houter ▸ hframe))

/-- A local that no name is given to. -/
def mint (r : Resolver) : Resolver where
  scopes := r.scopes
  nextLocal := r.nextLocal + 1
  minted := fun frame hframe entry hentry => Nat.lt_succ_of_lt (r.minted frame hframe entry hentry)

def define (r : Resolver) (name : String) : Resolver where
  scopes := r.scopes.define name ⟨r.nextLocal⟩
  nextLocal := r.nextLocal + 1
  minted := by
    intro frame hframe entry hentry
    rcases List.mem_cons.mp hframe with rfl | hframe
    · rcases List.mem_cons.mp hentry with rfl | hentry
      · exact Nat.lt_succ_self _
      · exact Nat.lt_succ_of_lt (r.minted _ List.mem_cons_self entry hentry)
    · exact Nat.lt_succ_of_lt (r.minted frame (List.mem_cons_of_mem _ hframe) entry hentry)

theorem lookup_lt (r : Resolver) {x : String} {id : LocalId} (h : r.scopes.lookup x = some id) :
    id.index < r.nextLocal := by
  obtain ⟨frame, hframe, hid⟩ := List.exists_of_findSome?_eq_some h
  obtain ⟨before, behind, rfl, -⟩ := List.lookup_eq_some_iff.mp hid
  exact r.minted _ hframe (x, id) (by simp)

end Resolver

/-! ### What a name refers to -/

/-- Where a name stands: alone, as the base of a field access, or under type arguments. -/
inductive Site where
  | ident | base | applied | appliedBase
  deriving DecidableEq, Repr

def Site.isApplied : Site → Bool
  | .ident | .base => false
  | .applied | .appliedBase => true

/-- A field stands behind the name. -/
def Site.isBase : Site → Bool
  | .ident | .applied => false
  | .base | .appliedBase => true

inductive Referent where
  | localVar (id : LocalId)
  | function (item : ItemId)
  | case (variant : ItemId) (index : ℕ)
  | protocol (item : ItemId)
  | typeName (item : ItemId)
  | ambiguousCase
  | unresolved
  deriving DecidableEq, Repr

/-- The names of a module. -/
structure Tables where
  functionsByName : String → Option ItemId
  caseLookup : String → List (ItemId × ℕ)
  protocolNames : String → Option ItemId
  typeNames : String → Option ItemId

namespace Tables
variable (t : Tables)

def protocolOr (name : String) (other : Referent) : Referent :=
  ((t.protocolNames name).map .protocol).getD other

def typeOr (name : String) (other : Referent) : Referent :=
  ((t.typeNames name).map .typeName).getD other

/-- A name that is neither a local nor a function, standing alone. -/
def value (name : String) : Referent :=
  match t.caseLookup name with
  | [] => t.protocolOr name .unresolved
  | [(variant, index)] => .case variant index
  | _ => .ambiguousCase

/-- A name that is not a local. -/
def declared (site : Site) (name : String) : Referent :=
  match t.functionsByName name with
  | some item => .function item
  | none =>
    match site with
    | .ident => t.value name
    | .base => t.protocolOr name (t.typeOr name (t.value name))
    | .applied => t.typeOr name (t.protocolOr name .unresolved)
    | .appliedBase => t.protocolOr name (t.typeOr name .unresolved)

def refersTo (site : Site) (name : String) : Option LocalId → Referent
  | some id => .localVar id
  | none => t.declared site name

theorem declared_ne_localVar (site : Site) (name : String) (id : LocalId) :
    t.declared site name ≠ .localVar id := by
  have hprotocol {other : Referent} (h : other ≠ .localVar id) :
      t.protocolOr name other ≠ .localVar id := by
    unfold protocolOr
    cases t.protocolNames name <;> simp [h]
  have htype {other : Referent} (h : other ≠ .localVar id) :
      t.typeOr name other ≠ .localVar id := by
    unfold typeOr
    cases t.typeNames name <;> simp [h]
  have hunresolved : Referent.unresolved ≠ .localVar id := fun h => by cases h
  have hvalue : t.value name ≠ .localVar id := by
    unfold value
    split
    · exact hprotocol hunresolved
    · exact fun h => by cases h
    · exact fun h => by cases h
  unfold declared
  cases t.functionsByName name with
  | some item => exact fun h => by cases h
  | none =>
    cases site with
    | ident => exact hvalue
    | base => exact hprotocol (htype hvalue)
    | applied => exact htype (hprotocol hunresolved)
    | appliedBase => exact hprotocol (htype hunresolved)

theorem refersTo_inj {site : Site} {name : String} {a b : Option LocalId} :
    t.refersTo site name a = t.refersTo site name b ↔ a = b := by
  cases a with
  | none =>
    cases b with
    | none => simp
    | some id => simpa [refersTo] using t.declared_ne_localVar site name id
  | some id =>
    cases b with
    | none => simpa [refersTo] using (t.declared_ne_localVar site name id).symm
    | some id' => simp [refersTo]

end Tables

/-! ### What lowering asks of the scopes -/

inductive Step where
  | use (site : Site) (name : String)
  /-- A fresh local under a name. -/
  | define (name : String)
  | scope (inner : List Step)

structure Use where
  name : String
  referent : Referent
  deriving DecidableEq, Repr

section
variable (t : Tables)

mutual

def Step.lower : Step → Resolver → Resolver × List Use
  | .use site name, r => (r, [⟨name, t.refersTo site name (r.scopes.lookup name)⟩])
  | .define name, r => (r.define name, [])
  | .scope inner, r =>
    let (r, uses) := lowerAll inner r.push
    (r.pop, uses)

def lowerAll : List Step → Resolver → Resolver × List Use
  | [], r => (r, [])
  | step :: rest, r =>
    let (r, uses) := step.lower r
    let (r, more) := lowerAll rest r
    (r, uses ++ more)

end

end

section
variable {t : Tables}

mutual

theorem Step.lower_outer : ∀ (step : Step) (r : Resolver),
    (step.lower t r).1.scopes.outer = r.scopes.outer
  | .use _ _, _ => rfl
  | .define _, _ => rfl
  | .scope inner, r => by
    have hinner := lowerAll_outer inner r.push
    simp only [Step.lower, Resolver.pop, Scopes.pop, hinner]
    rfl

theorem lowerAll_outer : ∀ (steps : List Step) (r : Resolver),
    (lowerAll t steps r).1.scopes.outer = r.scopes.outer
  | [], _ => rfl
  | step :: rest, r => by
    simp only [lowerAll]
    rw [lowerAll_outer rest, step.lower_outer]

end

theorem scopes_lower_scope (inner : List Step) (r : Resolver) :
    ((Step.scope inner).lower t r).1.scopes = r.scopes := by
  have hinner := lowerAll_outer (t := t) inner r.push
  simp only [Step.lower, Resolver.pop, Scopes.pop, hinner]
  rfl

mutual

theorem Step.lower_names : ∀ (step : Step) (r₁ r₀ : Resolver),
    (step.lower t r₁).2.map Use.name = (step.lower t r₀).2.map Use.name
  | .use _ _, _, _ => rfl
  | .define _, _, _ => rfl
  | .scope inner, r₁, r₀ => lowerAll_names inner r₁.push r₀.push

theorem lowerAll_names : ∀ (steps : List Step) (r₁ r₀ : Resolver),
    (lowerAll t steps r₁).2.map Use.name = (lowerAll t steps r₀).2.map Use.name
  | [], _, _ => rfl
  | step :: rest, r₁, r₀ => by
    simp only [lowerAll, List.map_append]
    rw [step.lower_names r₁ r₀, lowerAll_names rest]

end

theorem lowerAll_append (steps more : List Step) (r : Resolver) :
    lowerAll t (steps ++ more) r =
      ((lowerAll t more (lowerAll t steps r).1).1,
        (lowerAll t steps r).2 ++ (lowerAll t more (lowerAll t steps r).1).2) := by
  induction steps generalizing r with
  | nil => rfl
  | cons step rest ih =>
    simp only [List.cons_append, lowerAll, ih, List.append_assoc]

end

/-! ### The steps of a body -/

mutual

/-- The identifiers of a pattern, in the order they are lowered in. -/
def patternIdents : ℕ → Pattern → List String
  | depth, .ident name => if depth > Limits.maxPatternDepth then [] else [name]
  | depth, .variant _ args =>
    if depth > Limits.maxPatternDepth then [] else patternsIdents (depth + 1) args
  | _, _ => []

def patternsIdents : ℕ → List Pattern → List String
  | _, [] => []
  | depth, pattern :: rest => patternIdents depth pattern ++ patternsIdents depth rest

end

def failureIdents : Parser.FailurePattern → List String
  | .wildcard => []
  | .case _ _ args => patternsIdents 0 args

mutual

def exprSteps : Expr → List Step
  | .int _ _ | .float _ | .str _ | .char _ | .bool _ | .cont | .error => []
  | .ident name => [.use .ident name]
  | .paren inner => exprSteps inner
  | .unary _ operand => exprSteps operand
  | .binary _ left right => exprSteps left ++ exprSteps right
  | .assign target _ value => exprSteps target ++ exprSteps value
  | .call callee args => exprSteps callee ++ argsSteps args
  | .field (.ident name) _ => [.use .base name]
  | .field (.typeApply name _) _ => [.use .appliedBase name]
  | .field base _ => exprSteps base
  | .cast expr _ => exprSteps expr
  | .try expr => exprSteps expr
  | .ifExpr expr => ifSteps expr
  | .matchExpr scrutinee arms => exprSteps scrutinee ++ matchArmsSteps arms
  | .block b => [blockStep b]
  | .ret value => valueSteps value
  | .brk value => valueSteps value
  | .recordLiteral _ _ fields => fieldsSteps fields
  | .typeApply base _ => [.use .applied base]
  | .raise operand => exprSteps operand
  | .handle operand arms => exprSteps operand ++ handleArmsSteps arms

def valueSteps : Option Expr → List Step
  | none => []
  | some value => exprSteps value

def argsSteps : List Expr → List Step
  | [] => []
  | arg :: rest => exprSteps arg ++ argsSteps rest

def fieldsSteps : List (String × Expr) → List Step
  | [] => []
  | (_, value) :: rest => exprSteps value ++ fieldsSteps rest

def ifSteps : IfExpr → List Step
  | .mk condition thenBranch elseBranch =>
    exprSteps condition ++ blockStep thenBranch :: elseSteps elseBranch

def elseSteps : Option ElseBranch → List Step
  | none => []
  | some (.block b) => [blockStep b]
  | some (.ifExpr expr) => ifSteps expr

def bodySteps : MatchArmBody → List Step
  | .expr expr => exprSteps expr
  | .block b => [blockStep b]

def matchArmsSteps : List MatchArm → List Step
  | [] => []
  | .mk pattern body :: rest =>
    .scope ((patternIdents 0 pattern).map .define ++ bodySteps body) :: matchArmsSteps rest

def handleArmsSteps : List HandleArm → List Step
  | [] => []
  | .success pattern body :: rest =>
    .scope ((patternIdents 0 pattern).map .define ++ bodySteps body) :: handleArmsSteps rest
  | .failure pattern body :: rest =>
    .scope ((failureIdents pattern).map .define ++ bodySteps body) :: handleArmsSteps rest

def blockStep : Block → Step
  | .mk statements tail => .scope (stmtsSteps statements ++ valueSteps tail)

def stmtsSteps : List Stmt → List Step
  | [] => []
  | stmt :: rest => stmtSteps stmt ++ stmtsSteps rest

/-- An alias covers the body of its `observe` and not the source. -/
def stmtSteps : Stmt → List Step
  | .binding _ name _ value => exprSteps value ++ [.define name]
  | .expr expr => exprSteps expr
  | .defer expr => exprSteps expr
  | .drop expr => exprSteps expr
  | .while condition body => exprSteps condition ++ [blockStep body]
  | .loop body => [blockStep body]
  | .observe source aliasName body =>
    exprSteps source ++ [.scope [.define aliasName, blockStep body]]

end

/-- Parameters are defined in the outermost scope, around the block. -/
def functionSteps (params : List String) (body : Block) : List Step :=
  params.map .define ++ [blockStep body]

end Napitia.Hir.Scoping

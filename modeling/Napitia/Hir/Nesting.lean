import Napitia.Hir.Scoping

/-!
# Scopes by nesting

What the names of a body refer to, told over its syntax tree: each part is given what is in scope
in front of it, and a binding is in scope in what stands under it. There are no frames, and nothing
is taken back when a scope closes.
-/
namespace Napitia.Hir.Scoping
open Lower (LocalId)
open Napitia.Parser

/-- The local each name refers to. -/
abbrev Env := String → Option LocalId

/-- The uses of a part of a body, where these names are in scope and from this local on, with the
next local behind it. -/
abbrev Naming := Env → ℕ → List Use × ℕ

namespace Naming

def nothing : Naming := fun _ n => ([], n)

def both (x y : Naming) : Naming := fun env n =>
  let (first, n) := x env n
  let (rest, n) := y env n
  (first ++ rest, n)

/-- Fresh locals under these names, the last the innermost. -/
def under : List String → Naming → Naming
  | [], x => x
  | name :: rest, x => fun env n => under rest x (Function.update env name (some ⟨n⟩)) (n + 1)

end Naming
open Naming

section
variable (t : Tables)

def named (site : Site) (name : String) : Naming := fun env n =>
  ([⟨name, t.refersTo site name (env name)⟩], n)

mutual

def exprUses : Expr → Naming
  | .int _ _ | .float _ | .str _ | .char _ | .bool _ | .cont | .error => nothing
  | .ident name => named t .ident name
  | .paren inner => exprUses inner
  | .unary _ operand => exprUses operand
  | .binary _ left right => both (exprUses left) (exprUses right)
  | .assign target _ value => both (exprUses target) (exprUses value)
  | .call callee args => both (exprUses callee) (argsUses args)
  | .field (.ident name) _ => named t .base name
  | .field (.typeApply name _) _ => named t .appliedBase name
  | .field base _ => exprUses base
  | .cast expr _ => exprUses expr
  | .try expr => exprUses expr
  | .ifExpr expr => ifUses expr
  | .matchExpr scrutinee arms => both (exprUses scrutinee) (matchArmsUses arms)
  | .block b => blockUses b
  | .ret value => valueUses value
  | .brk value => valueUses value
  | .recordLiteral _ _ fields => fieldsUses fields
  | .typeApply base _ => named t .applied base
  | .raise operand => exprUses operand
  | .handle operand arms => both (exprUses operand) (handleArmsUses arms)

def valueUses : Option Expr → Naming
  | none => nothing
  | some value => exprUses value

def argsUses : List Expr → Naming
  | [] => nothing
  | arg :: rest => both (exprUses arg) (argsUses rest)

def fieldsUses : List (String × Expr) → Naming
  | [] => nothing
  | (_, value) :: rest => both (exprUses value) (fieldsUses rest)

def ifUses : IfExpr → Naming
  | .mk condition thenBranch elseBranch =>
    both (exprUses condition) (both (blockUses thenBranch) (elseUses elseBranch))

def elseUses : Option ElseBranch → Naming
  | none => nothing
  | some (.block b) => blockUses b
  | some (.ifExpr expr) => ifUses expr

def bodyUses : MatchArmBody → Naming
  | .expr expr => exprUses expr
  | .block b => blockUses b

/-- The bindings of a pattern cover the body of its arm. -/
def matchArmsUses : List MatchArm → Naming
  | [] => nothing
  | .mk pattern body :: rest =>
    both (under (patternIdents 0 pattern) (bodyUses body)) (matchArmsUses rest)

def handleArmsUses : List HandleArm → Naming
  | [] => nothing
  | .success pattern body :: rest =>
    both (under (patternIdents 0 pattern) (bodyUses body)) (handleArmsUses rest)
  | .failure pattern body :: rest =>
    both (under (failureIdents pattern) (bodyUses body)) (handleArmsUses rest)

def blockUses : Block → Naming
  | .mk statements tail => stmtsUses statements (valueUses tail)

/-- The statements, and what stands behind them in their block. -/
def stmtsUses : List Stmt → Naming → Naming
  | [], behind => behind
  | stmt :: rest, behind => stmtUses stmt (stmtsUses rest behind)

/-- A binding covers the rest of its block, and an alias the body of its `observe`. -/
def stmtUses : Stmt → Naming → Naming
  | .binding _ name _ value, behind => both (exprUses value) (under [name] behind)
  | .expr expr, behind => both (exprUses expr) behind
  | .defer expr, behind => both (exprUses expr) behind
  | .drop expr, behind => both (exprUses expr) behind
  | .while condition body, behind => both (exprUses condition) (both (blockUses body) behind)
  | .loop body, behind => both (blockUses body) behind
  | .observe source aliasName body, behind =>
    both (exprUses source) (both (under [aliasName] (blockUses body)) behind)

end

/-- Parameters cover the body. -/
def functionUses (params : List String) (body : Block) : Naming := under params (blockUses t body)

/-- Lowering the steps gives these uses. -/
def Within (steps : List Step) (x : Naming) : Prop :=
  ∀ r : Resolver, x r.scopes.lookup r.nextLocal =
    ((lowerAll t steps r).2, (lowerAll t steps r).1.nextLocal)

/-- And leaves the scopes as they were. -/
structure Closed (steps : List Step) (x : Naming) : Prop where
  within : Within t steps x
  scopes : ∀ r, (lowerAll t steps r).1.scopes = r.scopes

end

section
variable {t : Tables} {steps more : List Step} {x y : Naming}

theorem Closed.nothing : Closed t [] nothing := ⟨fun _ => rfl, fun _ => rfl⟩

theorem Closed.named (site : Site) (name : String) :
    Closed t [.use site name] (named t site name) := ⟨fun _ => rfl, fun _ => rfl⟩

theorem Closed.before (hx : Closed t steps x) (hy : Within t more y) :
    Within t (steps ++ more) (both x y) := by
  intro r
  have hmore := hy (lowerAll t steps r).1
  rw [hx.scopes] at hmore
  simp only [both, hx.within r, hmore, lowerAll_append]

theorem Closed.both (hx : Closed t steps x) (hy : Closed t more y) :
    Closed t (steps ++ more) (both x y) where
  within := hx.before hy.within
  scopes r := by rw [lowerAll_append, hy.scopes, hx.scopes]

theorem Within.scope (h : Within t steps x) : Closed t [.scope steps] x where
  within r := by
    have hinner := h r.push
    simp only [Resolver.push] at hinner
    simp only [lowerAll, Step.lower, Resolver.pop, Resolver.push, List.append_nil]
    exact hinner
  scopes r := scopes_lower_scope steps r

theorem Within.under (h : Within t steps x) :
    ∀ names : List String, Within t (names.map .define ++ steps) (under names x)
  | [] => h
  | name :: rest => by
    intro r
    have hrest := Within.under h rest (r.define name)
    have hlookup : (r.define name).scopes.lookup =
        Function.update r.scopes.lookup name (some ⟨r.nextLocal⟩) := by
      funext other
      rcases eq_or_ne other name with rfl | hne
      · simp [Resolver.define]
      · simp [Resolver.define, Scopes.lookup_define_of_ne _ _ hne, hne]
    rw [hlookup] at hrest
    exact hrest

variable (t)

mutual

theorem exprUses_closed : ∀ e, Closed t (exprSteps e) (exprUses t e)
  | .int _ _ | .float _ | .str _ | .char _ | .bool _ | .cont | .error => .nothing
  | .ident name => .named .ident name
  | .paren inner => exprUses_closed inner
  | .unary _ operand => exprUses_closed operand
  | .binary _ left right => (exprUses_closed left).both (exprUses_closed right)
  | .assign target _ value => (exprUses_closed target).both (exprUses_closed value)
  | .call callee args => (exprUses_closed callee).both (argsUses_closed args)
  | .field base _ => by
    have hbase := exprUses_closed base
    cases base with
    | ident name => exact .named .base name
    | typeApply name _ => exact .named .appliedBase name
    | _ => exact hbase
  | .cast expr _ => exprUses_closed expr
  | .try expr => exprUses_closed expr
  | .ifExpr expr => ifUses_closed expr
  | .matchExpr scrutinee arms => (exprUses_closed scrutinee).both (matchArmsUses_closed arms)
  | .block b => blockUses_closed b
  | .ret value => valueUses_closed value
  | .brk value => valueUses_closed value
  | .recordLiteral _ _ fields => fieldsUses_closed fields
  | .typeApply base _ => .named .applied base
  | .raise operand => exprUses_closed operand
  | .handle operand arms => (exprUses_closed operand).both (handleArmsUses_closed arms)

theorem valueUses_closed : ∀ value, Closed t (valueSteps value) (valueUses t value)
  | none => .nothing
  | some value => exprUses_closed value

theorem argsUses_closed : ∀ args, Closed t (argsSteps args) (argsUses t args)
  | [] => .nothing
  | arg :: rest => (exprUses_closed arg).both (argsUses_closed rest)

theorem fieldsUses_closed : ∀ fields, Closed t (fieldsSteps fields) (fieldsUses t fields)
  | [] => .nothing
  | (_, value) :: rest => (exprUses_closed value).both (fieldsUses_closed rest)

theorem ifUses_closed : ∀ e, Closed t (ifSteps e) (ifUses t e)
  | .mk condition thenBranch elseBranch =>
    (exprUses_closed condition).both ((blockUses_closed thenBranch).both (elseUses_closed elseBranch))

theorem elseUses_closed : ∀ branch, Closed t (elseSteps branch) (elseUses t branch)
  | none => .nothing
  | some (.block b) => blockUses_closed b
  | some (.ifExpr expr) => ifUses_closed expr

theorem bodyUses_closed : ∀ body, Closed t (bodySteps body) (bodyUses t body)
  | .expr expr => exprUses_closed expr
  | .block b => blockUses_closed b

theorem matchArmsUses_closed : ∀ arms, Closed t (matchArmsSteps arms) (matchArmsUses t arms)
  | [] => .nothing
  | .mk pattern body :: rest =>
    ((bodyUses_closed body).within.under (patternIdents 0 pattern)).scope.both (matchArmsUses_closed rest)

theorem handleArmsUses_closed : ∀ arms, Closed t (handleArmsSteps arms) (handleArmsUses t arms)
  | [] => .nothing
  | .success pattern body :: rest =>
    ((bodyUses_closed body).within.under (patternIdents 0 pattern)).scope.both (handleArmsUses_closed rest)
  | .failure pattern body :: rest =>
    ((bodyUses_closed body).within.under (failureIdents pattern)).scope.both (handleArmsUses_closed rest)

theorem blockUses_closed : ∀ b, Closed t [blockStep b] (blockUses t b)
  | .mk statements tail => (stmtsUses_within statements (valueUses_closed tail).within).scope

theorem stmtsUses_within : ∀ (stmts : List Stmt) {more : List Step} {y : Naming},
    Within t more y → Within t (stmtsSteps stmts ++ more) (stmtsUses t stmts y)
  | [], _, _, h => h
  | stmt :: rest, more, y, h => by
    have hrest := stmtUses_within stmt (stmtsUses_within rest h)
    rw [← List.append_assoc] at hrest
    exact hrest

theorem stmtUses_within : ∀ (stmt : Stmt) {more : List Step} {y : Naming},
    Within t more y → Within t (stmtSteps stmt ++ more) (stmtUses t stmt y)
  | .binding _ name _ value, more, y, h => by
    have hvalue := (exprUses_closed value).before (h.under [name])
    rw [← List.append_assoc] at hvalue
    exact hvalue
  | .expr expr, _, _, h => (exprUses_closed expr).before h
  | .defer expr, _, _, h => (exprUses_closed expr).before h
  | .drop expr, _, _, h => (exprUses_closed expr).before h
  | .while condition body, _, _, h => by
    have hbody := (exprUses_closed condition).before ((blockUses_closed body).before h)
    rw [← List.append_assoc] at hbody
    exact hbody
  | .loop body, _, _, h => (blockUses_closed body).before h
  | .observe source aliasName body, _, _, h => by
    have hbody := (exprUses_closed source).before
      (((blockUses_closed body).within.under [aliasName]).scope.before h)
    rw [← List.append_assoc] at hbody
    exact hbody

end

theorem functionUses_within (params : List String) (body : Block) :
    Within t (functionSteps params body) (functionUses t params body) :=
  (blockUses_closed t body).within.under params

end

end Napitia.Hir.Scoping

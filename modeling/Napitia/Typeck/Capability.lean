import Mathlib.Data.List.Sort
import Napitia.Substitution

/-!
# The capability solver

Extensions are registered once, each pair of one protocol checked for a
requirement both could answer, and a requirement is then resolved by the one
extension whose head matches it, its own requirements in turn. Diagnostics are
kept as their codes; the texts, spans and sources they carry are left out.
-/
namespace Napitia.Typeck

inductive CapabilityCode where
  | duplicateExtension | overlappingExtension | undeclaredCapabilityUse | missingCapability
  | ambiguousCapability | cyclicCapabilityRequirement | capabilityDepthExceeded
  | capabilityWorkBudgetExceeded | overlapWorkBudgetExceeded
  deriving DecidableEq, Repr

structure ExtendInfo where
  id : ItemId
  typeParams : List TypeParamId
  protocol : ItemId
  protocolArguments : List Ty
  requirements : List CapabilityRequirement
  deriving DecidableEq, Repr

/-! ### Heads against requirements -/

/-- One position of a head against a concrete type; the depth that remains
bounds the walk. -/
def matchOne : ℕ → Ty → Ty → Subst → Option Subst
  | 0, _, _, _ => none
  | n + 1, pattern, concrete, subst =>
    match pattern with
    | .param id =>
      match subst.lookup id with
      | some existing => if existing = concrete then some subst else none
      | none => some (subst.insert id concrete)
    | .applied item args =>
      match concrete with
      | .applied concreteItem concreteArgs =>
        if item = concreteItem ∧ args.length = concreteArgs.length then
          (args.zip concreteArgs).foldlM (fun s p => matchOne n p.1 p.2 s) subst
        else none
      | _ => none
    | other => if other = concrete then some subst else none

def matchExtendHead (pattern concrete : List Ty) : Option Subst :=
  if pattern.length = concrete.length then
    (pattern.zip concrete).foldlM (fun s p => matchOne (Limits.maxGenericDepth + 1) p.1 p.2 s) ∅
  else none

/-! ### Heads against each other -/

inductive OverlapOutcome where
  | disjoint | overlap | budgetExceeded
  deriving DecidableEq, Repr

/-- The unifier counts its steps, and stops when its budget is exceeded. -/
abbrev Unifying := StateT ℕ (Except Unit)

def countStep : Unifying Unit := do
  modify (· + 1)
  if (← get) > Limits.maxCapabilityResolutionSteps then throw ()

/-- A type followed through the bindings of the parameters it names, one at a
time, for as many hops as remain. -/
def resolveHeadFrom (subst : Subst) : ℕ → Ty → Ty
  | 0, ty => ty
  | n + 1, .param id =>
    match subst.lookup id with
    | some next => resolveHeadFrom subst n next
    | none => .param id
  | _ + 1, ty => ty

def resolveHead (subst : Subst) (ty : Ty) : Ty := resolveHeadFrom subst (subst.keys.length + 1) ty

def occursInHead (subst : Subst) (var : TypeParamId) (free : List TypeParamId) :
    ℕ → Ty → Unifying Bool
  | 0, _ => throw ()
  | n + 1, ty => do
    countStep
    match resolveHead subst ty with
    | .param id => pure (id ∈ free && id = var)
    | .applied _ args => args.anyM (occursInHead subst var free n)
    | _ => pure false

/-- Pairs unified one after the other, each under the bindings of those before;
nothing is handed back once one pair cannot be unified. -/
def unifyEach (unify : Subst → Ty → Ty → Unifying (Option Subst)) :
    List (Ty × Ty) → Subst → Unifying (Option Subst)
  | [], subst => pure (some subst)
  | (a, b) :: pairs, subst => do
    match ← unify subst a b with
    | some subst => unifyEach unify pairs subst
    | none => pure none

/-- A free parameter bound to what it must be, unless that mentions it. -/
def bindHead (subst : Subst) (free : List TypeParamId) (n : ℕ) (id : TypeParamId) (ty : Ty) :
    Unifying (Option Subst) := do
  if ← occursInHead subst id free n ty then pure none else pure (some (subst.insert id ty))

def unifyHeadArgs (free : List TypeParamId) : ℕ → Subst → Ty → Ty → Unifying (Option Subst)
  | 0, _, _, _ => throw ()
  | n + 1, subst, a, b => do
    countStep
    let ra := resolveHead subst a
    let rb := resolveHead subst b
    match ra, rb with
    | .param ia, .param ib =>
      if ia ∈ free ∧ ib ∈ free then
        if ia = ib then pure (some subst) else pure (some (subst.insert ia rb))
      else if ia ∈ free then bindHead subst free n ia rb
      else if ib ∈ free then bindHead subst free n ib ra
      else pure (if ra = rb then some subst else none)
    | .param ia, _ =>
      if ia ∈ free then bindHead subst free n ia rb
      else pure (if ra = rb then some subst else none)
    | _, .param ib =>
      if ib ∈ free then bindHead subst free n ib ra
      else pure (if ra = rb then some subst else none)
    | .applied pa aargs, .applied pb bargs =>
      if pa ≠ pb ∨ aargs.length ≠ bargs.length then pure none
      else unifyEach (unifyHeadArgs free n) (aargs.zip bargs) subst
    | _, _ => pure (if ra = rb then some subst else none)

def headsCanOverlap (aArgs : List Ty) (aParams : List TypeParamId) (bArgs : List Ty)
    (bParams : List TypeParamId) : OverlapOutcome :=
  if aArgs.length ≠ bArgs.length then .disjoint
  else
    match (unifyEach (unifyHeadArgs (aParams ++ bParams) (Limits.maxGenericDepth + 1))
        (aArgs.zip bArgs) ∅).run 0 with
    | .ok (some _, _) => .overlap
    | .ok (none, _) => .disjoint
    | .error _ => .budgetExceeded

/-! ### Registration -/

/-- The pairs of a list, an earlier element with a later one. -/
def pairsOf {α : Type} : List α → List (α × α)
  | [] => []
  | a :: as => as.map (fun b => (a, b)) ++ pairsOf as

/-- What one pair of extensions excludes, by index, and reports. -/
def judgePair (x y : ExtendInfo × ℕ) : List ℕ × List CapabilityCode :=
  match headsCanOverlap x.1.protocolArguments x.1.typeParams y.1.protocolArguments
      y.1.typeParams with
  | .disjoint => ([], [])
  | .budgetExceeded => ([x.2, y.2], [.overlapWorkBudgetExceeded])
  | .overlap =>
    ([y.2], [if x.1.typeParams = [] ∧ y.1.typeParams = [] ∧
        x.1.protocolArguments = y.1.protocolArguments then
      .duplicateExtension else .overlappingExtension])

/-- The protocols that are extended, in ascending order. -/
def extendedProtocols (accepted : List ExtendInfo) : List ItemId :=
  ((accepted.map (·.protocol.index)).dedup.mergeSort).map ItemId.mk

def checkExtendOverlaps (accepted : List ExtendInfo) : List ℕ × List CapabilityCode :=
  let judged := (extendedProtocols accepted).flatMap fun protocol =>
    (pairsOf (accepted.zipIdx.filter (·.1.protocol = protocol))).map fun p => judgePair p.1 p.2
  (judged.flatMap (·.1), judged.flatMap (·.2))

/-- The extensions a requirement is resolved against. -/
def registeredExtends (accepted : List ExtendInfo) : List ExtendInfo :=
  (accepted.zipIdx.filter (·.2 ∉ (checkExtendOverlaps accepted).1)).map (·.1)

/-! ### Resolution -/

structure SolverState where
  cache : AList (fun _ : CapabilityRequirement => Evidence) := ∅
  steps : ℕ := 0
  diagnostics : List CapabilityCode := []

abbrev Solver := StateM SolverState

def report {α : Type} (code : CapabilityCode) : Solver (Option α) := do
  modify fun s => { s with diagnostics := s.diagnostics ++ [code] }
  pure none

/-- Requirements resolved one after the other, until one is not. -/
def resolveEach (resolve : CapabilityRequirement → Solver (Option Evidence)) :
    List CapabilityRequirement → Solver (Option (List Evidence))
  | [] => pure (some [])
  | r :: rs => do
    match ← resolve r with
    | none => pure none
    | some evidence =>
      match ← resolveEach resolve rs with
      | none => pure none
      | some rest => pure (some (evidence :: rest))

/-- Whether an extension answers a requirement. -/
def answers (requirement : CapabilityRequirement) (extend : ExtendInfo) : Bool :=
  extend.protocol = requirement.protocol &&
    (matchExtendHead extend.protocolArguments requirement.arguments).isSome

def nestedRequirements (extend : ExtendInfo) (subst : Subst) : List CapabilityRequirement :=
  extend.requirements.map fun r => ⟨r.protocol, r.arguments.map (substitute · subst)⟩

def selectExtension (extends' : List ExtendInfo)
    (resolve : CapabilityRequirement → Solver (Option Evidence))
    (requirement : CapabilityRequirement) : Solver (Option Evidence) :=
  match extends'.filter (answers requirement) with
  | [] => report .missingCapability
  | [extend] =>
    match matchExtendHead extend.protocolArguments requirement.arguments with
    | none => pure none
    | some subst => do
      match ← resolveEach resolve (nestedRequirements extend subst) with
      | none => pure none
      | some nested => pure (some (.extension extend.id nested))
  | _ => report .ambiguousCapability

/-- The depth that remains bounds the recursion; `path` is the requirements
being resolved, the outermost first. -/
def resolveConcrete (extends' : List ExtendInfo) :
    ℕ → List CapabilityRequirement → CapabilityRequirement → Solver (Option Evidence)
  | n, path, requirement => do
    match (← get).cache.lookup requirement with
    | some cached => pure (some cached)
    | none =>
      if requirement ∈ path then report .cyclicCapabilityRequirement
      else match n with
        | 0 => report .capabilityDepthExceeded
        | n + 1 => do
          modify fun s => { s with steps := s.steps + 1 }
          if (← get).steps > Limits.maxCapabilityResolutionSteps then
            report .capabilityWorkBudgetExceeded
          else
            match ← selectExtension extends'
                (resolveConcrete extends' n (path ++ [requirement])) requirement with
            | none => pure none
            | some evidence => do
              modify fun s => { s with cache := s.cache.insert requirement evidence }
              pure (some evidence)

mutual

def tyIsSymbolic : Ty → Bool
  | .param _ => true
  | .applied _ args => anyIsSymbolic args
  | _ => false

def anyIsSymbolic : List Ty → Bool
  | [] => false
  | ty :: tys => tyIsSymbolic ty || anyIsSymbolic tys

end

def requirementIsSymbolic (requirement : CapabilityRequirement) : Bool :=
  requirement.arguments.any tyIsSymbolic

/-- A requirement of the enclosing declaration is forwarded before any
extension is searched for. -/
def resolveRequirement (extends' : List ExtendInfo) (requirement : CapabilityRequirement)
    (ownRequirements : List CapabilityRequirement) : Solver (Option Evidence) :=
  if requirement ∈ ownRequirements then
    pure (some (.forwarded (ownRequirements.idxOf requirement)))
  else if requirementIsSymbolic requirement then report .undeclaredCapabilityUse
  else do
    modify fun s => { s with steps := 0 }
    resolveConcrete extends' (Limits.maxCapabilityDepth + 1) [] requirement

end Napitia.Typeck

import Napitia.Nir
import Napitia.Substitution

/-!
# The verifier's checks of declarations and calls

`verifyModule` re-checks a lowered module before it may run and collects every
diagnostic by its code: an empty list lets the module through. Embedded here are
the checks of item identities, of the types at every root, of protocols and
their extensions, of signatures, and of the calls a body makes with the
capability evidence they carry. The checks of control flow, of ownership, of
observations and of the other instructions are not part of it, so a module the
whole pass accepts is accepted here.
-/
namespace Napitia.Verify
open Nir

inductive Code where
  | duplicateFunctionId | duplicateBlockId | emptyFunction | unknownFunctionRef | unknownValue
  | operandTypeMismatch | unresolvedTypeVariable | unexpectedErrorType | arityMismatch
  | missingEntryBlock | duplicateValueDefinition | duplicateRecordId | duplicateVariantId
  | itemIdKindCollision | unknownNamedType | genericArityMismatch | escapingTypeParameter
  | unappliedGenericType | duplicateTypeParameter | genericDepthExceeded | unknownExtendProtocol
  | extendProtocolArityMismatch | unknownRequirementProtocol | requirementArityMismatch
  | extendMethodCountMismatch | extendMethodUnknownFunction | extendMethodTypeParamMismatch
  | extendMethodSignatureMismatch | duplicateExtendMethodReference | duplicateProtocolId
  | duplicateExtendId | evidenceCountMismatch | forwardedIndexOutOfRange
  | forwardedRequirementMismatch | unknownExtensionReference | extensionProtocolMismatch
  | extensionHeadMismatch | nestedEvidenceCountMismatch | forwardedInsideNestedEvidence
  | evidenceDepthExceeded | evidenceWorkBudgetExceeded | unknownProtocolCallTarget
  | extendMethodRequirementsMismatch | unconstrainedExtendParameter
  | extensionForSymbolicRequirement | unknownRaisesType | duplicateRaisesEntry
  | callToFallibleFunction | invokeOfInfallibleFunction | genericRaisesType
  | extendMethodMustBeInfallible | unimplementedNumericType
  deriving DecidableEq, Repr

/-! ### What a module declares -/

/-- The signature a call is checked against. -/
structure KnownFunction where
  typeParams : List TypeParamId
  params : List Ty
  returnType : Ty
  requirements : List CapabilityRequirement
  raises : List ItemId

structure AggregateContext where
  records : ItemId → Option RecordLayout
  variants : ItemId → Option VariantLayout
  protocols : ItemId → Option ProtocolLayout
  extensions : ItemId → Option ExtendLayout

/-- An entry by its identity, where a later entry replaces an earlier one. -/
def collected {β : Type} (entries : List (ItemId × β)) (id : ItemId) : Option β :=
  (entries.reverse.find? (·.1 = id)).map (·.2)

def aggregateContext (m : Module) : AggregateContext where
  records := collected m.records
  variants := collected m.variants
  protocols := collected m.protocols
  extensions := collected m.extensions

def knownFunction (function : Function) : KnownFunction where
  typeParams := function.typeParams.map (·.1)
  params := function.params.map (·.ty)
  returnType := function.returnType
  requirements := function.requirements
  raises := function.raises

def knownFunctions (m : Module) : ItemId → Option KnownFunction :=
  collected (m.functions.map fun f => (f.id, knownFunction f))

/-- One diagnostic for each element that repeats an earlier one. -/
def checkDistinct {α : Type} [DecidableEq α] (code : Code) : List α → List α → List Code
  | _, [] => []
  | seen, a :: as => (if a ∈ seen then [code] else []) ++ checkDistinct code (a :: seen) as

def checkNoDuplicateTypeParams (typeParams : List (TypeParamId × Symbol)) : List Code :=
  checkDistinct .duplicateTypeParameter [] (typeParams.map (·.1))

inductive ItemRole where
  | function | record | variant | protocol | extension
  deriving DecidableEq, Repr

def ItemRole.duplicate : ItemRole → Code
  | .function => .duplicateFunctionId
  | .record => .duplicateRecordId
  | .variant => .duplicateVariantId
  | .protocol => .duplicateProtocolId
  | .extension => .duplicateExtendId

/-- An identity keeps the role it was first seen in. -/
def checkItemIdentity (before : List (ItemId × ItemRole)) (id : ItemId) (role : ItemRole) :
    List Code :=
  match before.find? (·.1 = id) with
  | some (_, existing) => if existing ≠ role then [.itemIdKindCollision] else []
  | none => []

def checkItems : List (ItemId × ItemRole) → List (ItemId × ItemRole) → List Code
  | _, [] => []
  | before, (id, role) :: items =>
    (if (id, role) ∈ before then [role.duplicate] else []) ++ checkItemIdentity before id role ++
      checkItems (before ++ [(id, role)]) items

/-- The items of a module in the order they are visited. -/
def itemRoles (m : Module) : List (ItemId × ItemRole) :=
  m.functions.map (fun f => (f.id, .function)) ++ m.records.map (fun r => (r.1, .record)) ++
    m.variants.map (fun v => (v.1, .variant)) ++ m.protocols.map (fun p => (p.1, .protocol)) ++
    m.extensions.map (fun e => (e.1, .extension))

/-! ### Type roots

Each walk stops where the depth it is given is spent. -/

def checkNoBadType : ℕ → Ty → List Code
  | 0, _ => []
  | _ + 1, .var _ => [.unresolvedTypeVariable]
  | _ + 1, .error => [.unexpectedErrorType]
  | n + 1, .applied _ args => args.flatMap (checkNoBadType n)
  | _ + 1, other =>
    if Numeric.isExecutableNumeric other then [] else [.unimplementedNumericType]

def AggregateContext.typeParamCount (agg : AggregateContext) (item : ItemId) : Option ℕ :=
  (agg.records item).map (·.typeParams.length) <|> (agg.variants item).map (·.typeParams.length)

def checkNamedTypeIdentity (agg : AggregateContext) : ℕ → Ty → List Code
  | 0, _ => []
  | _ + 1, .named item =>
    match agg.typeParamCount item with
    | none => [.unknownNamedType]
    | some count => if 0 < count then [.unappliedGenericType] else []
  | n + 1, .applied item args =>
    (match agg.typeParamCount item with
      | none => [.unknownNamedType]
      | some count =>
        if count ≠ args.length then [.genericArityMismatch]
        else if count = 0 then [.genericArityMismatch] else []) ++
      args.flatMap (checkNamedTypeIdentity agg n)
  | _ + 1, _ => []

def checkTypeParamScope (ownParams : List TypeParamId) : ℕ → Ty → List Code
  | 0, _ => []
  | _ + 1, .param id => if id ∈ ownParams then [] else [.escapingTypeParameter]
  | n + 1, .applied _ args => args.flatMap (checkTypeParamScope ownParams n)
  | _ + 1, _ => []

def collectOccurringTypeParams : ℕ → Ty → List TypeParamId
  | 0, _ => []
  | _ + 1, .param id => [id]
  | n + 1, .applied _ args => args.flatMap (collectOccurringTypeParams n)
  | _ + 1, _ => []

def containsSymbolicParam : ℕ → Ty → Bool
  | 0, _ => true
  | _ + 1, .param _ => true
  | n + 1, .applied _ args => args.any (containsSymbolicParam n)
  | _ + 1, _ => false

/-- The one check every type root goes through. A root nested too deep is
reported once and not looked into. -/
def checkTypeRoot (agg : AggregateContext) (ownParams : List TypeParamId) (ty : Ty) : List Code :=
  if exceedsGenericDepth (Limits.maxGenericDepth + 1) ty then [.genericDepthExceeded]
  else checkNoBadType (Limits.maxGenericDepth + 1) ty ++
    checkNamedTypeIdentity agg (Limits.maxGenericDepth + 1) ty ++
    checkTypeParamScope ownParams (Limits.maxGenericDepth + 1) ty

def checkRequirement (agg : AggregateContext) (ownParams : List TypeParamId)
    (requirement : CapabilityRequirement) : List Code :=
  requirement.arguments.flatMap (checkTypeRoot agg ownParams) ++
    match agg.protocols requirement.protocol with
    | none => [.unknownRequirementProtocol]
    | some required =>
      if required.typeParams.length ≠ requirement.arguments.length then
        [.requirementArityMismatch]
      else []

/-! ### Evidence -/

inductive EvidenceProblem where
  | depthExceeded
  | workBudgetExceeded
  | forwardedNotAllowedHere
  | forwardedIndexOutOfRange
  | forwardedRequirementMismatch
  | unknownExtension (extend : ItemId)
  | extensionProtocolMismatch
  | extensionHeadMismatch
  | nestedEvidenceCountMismatch (expected found : ℕ)
  | extensionForSymbolicRequirement
  deriving DecidableEq, Repr

def EvidenceProblem.code : EvidenceProblem → Code
  | .depthExceeded => .evidenceDepthExceeded
  | .workBudgetExceeded => .evidenceWorkBudgetExceeded
  | .forwardedNotAllowedHere => .forwardedInsideNestedEvidence
  | .forwardedIndexOutOfRange => .forwardedIndexOutOfRange
  | .forwardedRequirementMismatch => .forwardedRequirementMismatch
  | .unknownExtension _ => .unknownExtensionReference
  | .extensionProtocolMismatch => .extensionProtocolMismatch
  | .extensionHeadMismatch => .extensionHeadMismatch
  | .nestedEvidenceCountMismatch _ _ => .nestedEvidenceCountMismatch
  | .extensionForSymbolicRequirement => .extensionForSymbolicRequirement

/-- One-directional match of an extension's head: only the extension's own
parameters are bound, and what a failed match bound is never read. -/
def matchExtendHead (free : List TypeParamId) : ℕ → Ty → Ty → Subst → Option Subst
  | 0, _, _, _ => none
  | n + 1, pattern, target, subst =>
    match pattern with
    | .param id =>
      if id ∈ free then
        match subst.lookup id with
        | some bound => if bound = target then some subst else none
        | none => some (subst.insert id target)
      else if .param id = target then some subst else none
    | .applied item args =>
      match target with
      | .applied targetItem targetArgs =>
        if item = targetItem ∧ args.length = targetArgs.length then
          (args.zip targetArgs).foldlM (fun s p => matchExtendHead free n p.1 p.2 s) subst
        else none
      | _ => none
    | other => if other = target then some subst else none

def matchExtendHeads (layout : ExtendLayout) (required : List Ty) : Option Subst :=
  if layout.protocolArguments.length = required.length then
    (layout.protocolArguments.zip required).foldlM (fun s p =>
      matchExtendHead (layout.typeParams.map (·.1)) (Limits.maxGenericDepth + 1) p.1 p.2 s) ∅
  else none

/-- The work one node of evidence costs. -/
def spend (depth budget : ℕ) : Except EvidenceProblem ℕ := do
  if depth > Limits.maxCapabilityDepth then throw .depthExceeded
  if budget = 0 then throw .workBudgetExceeded
  pure (budget - 1)

section
variable (agg : AggregateContext) (callerRequirements : List CapabilityRequirement)

mutual

/-- Evidence against the exact capability required of it; the budget that is
left is handed back. Only the root of a call's evidence may be forwarded. -/
def checkEvidence (requiredProtocol : ItemId) (requiredArguments : List Ty)
    (allowForwarded : Bool) (depth budget : ℕ) : Evidence → Except EvidenceProblem ℕ
  | .forwarded index => do
    let budget ← spend depth budget
    if !allowForwarded then throw .forwardedNotAllowedHere
    match callerRequirements[index]? with
    | none => throw .forwardedIndexOutOfRange
    | some forwarded =>
      if forwarded.protocol ≠ requiredProtocol ∨ forwarded.arguments ≠ requiredArguments then
        throw .forwardedRequirementMismatch
      pure budget
  | .extension extend nested => do
    let budget ← spend depth budget
    if requiredArguments.any (containsSymbolicParam (Limits.maxGenericDepth + 1)) then
      throw .extensionForSymbolicRequirement
    match agg.extensions extend with
    | none => throw (.unknownExtension extend)
    | some layout =>
      if layout.protocol ≠ requiredProtocol then throw .extensionProtocolMismatch
      match matchExtendHeads layout requiredArguments with
      | none => throw .extensionHeadMismatch
      | some subst =>
        if nested.length ≠ layout.requirements.length then
          throw (.nestedEvidenceCountMismatch layout.requirements.length nested.length)
        checkNested layout.requirements subst (depth + 1) budget nested

def checkNested (requirements : List CapabilityRequirement) (subst : Subst) (depth budget : ℕ) :
    List Evidence → Except EvidenceProblem ℕ
  | [] => pure budget
  | n :: ns =>
    match requirements with
    | [] => pure budget
    | r :: rs => do
      let budget ← checkEvidence r.protocol (r.arguments.map (substitute · subst)) false depth
        budget n
      checkNested rs subst depth budget ns

end

/-- The evidence of a call against what its callee requires of it. -/
def checkCallEvidence (requirements : List CapabilityRequirement) (subst : Subst)
    (evidence : List Evidence) : List Code :=
  if evidence.length ≠ requirements.length then [.evidenceCountMismatch]
  else (evidence.zip requirements).flatMap fun p =>
    match checkEvidence agg callerRequirements p.2.protocol
        (p.2.arguments.map (substitute · subst)) true 0 Limits.maxCapabilityResolutionSteps p.1 with
    | .ok _ => []
    | .error problem => [problem.code]

end

/-! ### Calls -/

/-- What the checks of a body read. -/
structure Scope where
  agg : AggregateContext
  knownFunctions : ItemId → Option KnownFunction
  ownParams : List TypeParamId
  ownRequirements : List CapabilityRequirement
  valueTypes : ValueId → Option Ty

section
variable (scope : Scope)

def requireValue (id : ValueId) : List Code :=
  if (scope.valueTypes id).isNone then [.unknownValue] else []

/-- The arguments of a call against the parameter types it must meet. -/
def checkArguments (params : List Ty) (args : List ValueId) : List Code :=
  if params.length ≠ args.length then [.arityMismatch]
  else (params.zip args).flatMap fun p =>
    match scope.valueTypes p.2 with
    | some ty => if ty ≠ p.1 then [.operandTypeMismatch] else []
    | none => []

/-- A type of the callee's signature, instantiated where the arity allows it. -/
def atCall (subst : Option Subst) (ty : Ty) : Ty :=
  match subst with
  | some subst => substitute ty subst
  | none => ty

/-- What an ordinary call and an invoke ask of the signature of their callee;
only an ordinary call declares a result of its own. -/
def checkSignature (sig : KnownFunction) (typeArgs : List Ty) (args : List ValueId)
    (evidence : List Evidence) (result : Option Ty) : List Code :=
  let subst := checkedSubstitution sig.typeParams typeArgs
  typeArgs.flatMap (checkTypeRoot scope.agg scope.ownParams) ++
    (if subst.isNone then [.genericArityMismatch] else []) ++
    (match subst with
      | some subst =>
        checkCallEvidence scope.agg scope.ownRequirements sig.requirements subst evidence
      | none => []) ++
    (match result with
      | some ty => if atCall subst sig.returnType ≠ ty then [.operandTypeMismatch] else []
      | none => []) ++
    checkArguments scope (sig.params.map (atCall subst)) args

def verifyCall (result : Ty) (callee : ItemId) (typeArgs : List Ty) (args : List ValueId)
    (evidence : List Evidence) : List Code :=
  args.flatMap (requireValue scope) ++
    match scope.knownFunctions callee with
    | none => [.unknownFunctionRef]
    | some sig =>
      (if sig.raises ≠ [] then [.callToFallibleFunction] else []) ++
        checkSignature scope sig typeArgs args evidence (some result)

def verifyInvoke (callee : ItemId) (typeArgs : List Ty) (args : List ValueId)
    (evidence : List Evidence) : List Code :=
  args.flatMap (requireValue scope) ++
    match scope.knownFunctions callee with
    | none => [.unknownFunctionRef]
    | some sig =>
      (if sig.raises = [] then [.invokeOfInfallibleFunction] else []) ++
        checkSignature scope sig typeArgs args evidence none

def verifyProtocolCall (result : Ty) (protocol : ItemId) (arguments : List Ty) (method : ℕ)
    (evidence : Evidence) (args : List ValueId) : List Code :=
  args.flatMap (requireValue scope) ++
    arguments.flatMap (checkTypeRoot scope.agg scope.ownParams) ++
    match scope.agg.protocols protocol with
    | none => [.unknownProtocolCallTarget]
    | some layout =>
      if layout.typeParams.length ≠ arguments.length then [.genericArityMismatch]
      else match layout.methods[method]? with
        | none => [.unknownProtocolCallTarget]
        | some methodLayout =>
          let subst := collectSubst (layout.typeParams.map (·.1)) arguments
          (if substitute methodLayout.returnType subst ≠ result then [.operandTypeMismatch]
            else []) ++
            checkArguments scope (methodLayout.params.map (substitute · subst)) args ++
            match checkEvidence scope.agg scope.ownRequirements protocol arguments true 0
                Limits.maxCapabilityResolutionSteps evidence with
            | .ok _ => []
            | .error problem => [problem.code]

def verifyValueKind (result : Ty) : ValueKind → List Code
  | .call callee typeArgs args evidence => verifyCall scope result callee typeArgs args evidence
  | .protocolCall protocol arguments method evidence args =>
    verifyProtocolCall scope result protocol arguments method evidence args
  | _ => []

def verifyInstruction : Instruction → List Code
  | .value _ ty kind =>
    checkTypeRoot scope.agg scope.ownParams ty ++ verifyValueKind scope ty kind
  | _ => []

def verifyTerminator : Terminator → List Code
  | .invoke callee typeArgs args evidence _ _ _ => verifyInvoke scope callee typeArgs args evidence
  | _ => []

end

/-! ### Declarations -/

section
variable (m : Module)

def verifyRecord (layout : RecordLayout) : List Code :=
  checkNoDuplicateTypeParams layout.typeParams ++
    (layout.fields.map (·.2)).flatMap
      (checkTypeRoot (aggregateContext m) (layout.typeParams.map (·.1)))

def verifyVariant (layout : VariantLayout) : List Code :=
  checkNoDuplicateTypeParams layout.typeParams ++
    (layout.cases.flatMap (·.payload)).flatMap
      (checkTypeRoot (aggregateContext m) (layout.typeParams.map (·.1)))

def verifyProtocol (layout : ProtocolLayout) : List Code :=
  checkNoDuplicateTypeParams layout.typeParams ++
    layout.methods.flatMap fun method =>
      (method.params ++ [method.returnType]).flatMap
        (checkTypeRoot (aggregateContext m) (layout.typeParams.map (·.1)))

/-- One entry of an extension's method table against the protocol method it
implements; `subst` is the extension's head. -/
def checkExtendMethod (layout : ExtendLayout) (protocol : ProtocolLayout) (subst : Subst)
    (index : ℕ) (method : ItemId) : List Code :=
  match knownFunctions m method with
  | none => [.extendMethodUnknownFunction]
  | some implementing =>
    (if implementing.typeParams ≠ layout.typeParams.map (·.1) then
        [.extendMethodTypeParamMismatch] else []) ++
      (if implementing.requirements ≠ layout.requirements then
        [.extendMethodRequirementsMismatch] else []) ++
      (if implementing.raises ≠ [] then [.extendMethodMustBeInfallible] else []) ++
      match protocol.methods[index]? with
      | none => []
      | some declared =>
        if implementing.params ≠ declared.params.map (substitute · subst) ∨
            implementing.returnType ≠ substitute declared.returnType subst then
          [.extendMethodSignatureMismatch]
        else []

def checkExtendMethods (layout : ExtendLayout) (protocol : ProtocolLayout) (subst : Subst) :
    List ItemId → ℕ → List ItemId → List Code
  | _, _, [] => []
  | seen, index, method :: methods =>
    (if method ∈ seen then [.duplicateExtendMethodReference] else []) ++
      checkExtendMethod m layout protocol subst index method ++
      checkExtendMethods layout protocol subst (method :: seen) (index + 1) methods

def verifyExtend (layout : ExtendLayout) : List Code :=
  let ownParams := layout.typeParams.map (·.1)
  let occurring :=
    layout.protocolArguments.flatMap (collectOccurringTypeParams (Limits.maxGenericDepth + 1))
  checkNoDuplicateTypeParams layout.typeParams ++
    (ownParams.flatMap fun id =>
      if id ∈ occurring then [] else [.unconstrainedExtendParameter]) ++
    layout.protocolArguments.flatMap (checkTypeRoot (aggregateContext m) ownParams) ++
    layout.requirements.flatMap (checkRequirement (aggregateContext m) ownParams) ++
    match (aggregateContext m).protocols layout.protocol with
    | none => [.unknownExtendProtocol]
    | some protocol =>
      (if protocol.typeParams.length ≠ layout.protocolArguments.length then
          [.extendProtocolArityMismatch] else []) ++
        (if protocol.methods.length ≠ layout.methods.length then
          [.extendMethodCountMismatch] else []) ++
        checkExtendMethods m layout protocol
          (collectSubst (protocol.typeParams.map (·.1)) layout.protocolArguments) [] 0
          layout.methods

def checkRaises (agg : AggregateContext) : List ItemId → List ItemId → List Code
  | _, [] => []
  | seen, raised :: raises =>
    (match agg.variants raised with
      | none => [.unknownRaisesType]
      | some layout => if layout.typeParams ≠ [] then [.genericRaisesType] else []) ++
      (if raised ∈ seen then [.duplicateRaisesEntry] else []) ++
      checkRaises agg (raised :: seen) raises

/-- The values a function defines, each with the type it declares: its
parameters, then the result of every instruction. -/
def definitions (function : Function) : List (ValueId × Ty) :=
  function.params.map (fun p => (p.value, p.ty)) ++
    (function.blocks.flatMap (·.instructions)).filterMap fun instruction =>
      match instruction with
      | .value result ty _ => some (result, ty)
      | _ => none

/-- The declared type of a value, the last of them for one defined twice. -/
def valueTypes (function : Function) (id : ValueId) : Option Ty :=
  ((definitions function).reverse.find? (·.1 = id)).map (·.2)

def scopeOf (function : Function) : Scope where
  agg := aggregateContext m
  knownFunctions := knownFunctions m
  ownParams := function.typeParams.map (·.1)
  ownRequirements := function.requirements
  valueTypes := valueTypes function

def verifyBlock (scope : Scope) (block : BasicBlock) : List Code :=
  block.instructions.flatMap (verifyInstruction scope) ++ verifyTerminator scope block.terminator

def verifyFunction (function : Function) : List Code :=
  if function.blocks = [] then [.emptyFunction]
  else if (function.blocks.any (·.id = ⟨0⟩)) = false then [.missingEntryBlock]
  else
    let ownParams := function.typeParams.map (·.1)
    checkNoDuplicateTypeParams function.typeParams ++
      checkTypeRoot (aggregateContext m) ownParams function.returnType ++
      function.params.flatMap (fun p => checkTypeRoot (aggregateContext m) ownParams p.ty) ++
      function.requirements.flatMap (checkRequirement (aggregateContext m) ownParams) ++
      checkRaises (aggregateContext m) [] function.raises ++
      checkDistinct .duplicateBlockId [] (function.blocks.map (·.id)) ++
      checkDistinct .duplicateValueDefinition [] ((definitions function).map (·.1)) ++
      function.blocks.flatMap (verifyBlock (scopeOf m function))

def verifyModule : List Code :=
  checkItems [] (itemRoles m) ++ m.records.flatMap (fun r => verifyRecord m r.2) ++
    m.variants.flatMap (fun v => verifyVariant m v.2) ++
    m.protocols.flatMap (fun p => verifyProtocol m p.2) ++
    m.extensions.flatMap (fun e => verifyExtend m e.2) ++
    m.functions.flatMap (verifyFunction m)

end

end Napitia.Verify

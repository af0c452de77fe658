import Napitia.Lib.Breadth
import Napitia.Lib.Components
import Napitia.Lib.MustFacts
import Napitia.Native.Scalar
import Napitia.Nir
import Mathlib.Data.List.Sort

/-!
# The native capability check

The gate between verified NIR and code generation: whether all that a program can reach is
inside the native subset, and if so what is to be compiled. A map or a set keyed by an id is a
list in ascending order of ids here, and the display of a type is a parameter.
-/
namespace Napitia.Native
open Nir Lexer Hir.Declarations

def entryName : String := "main"

/-- What is to be compiled. Only `validate` builds one. -/
structure NativePlan where
  entry : ItemId
  entryResult : Scalar
  functions : List ItemId
  blockPlans : List (ItemId × List BlockId)
  deriving DecidableEq, Repr

def NativePlan.reachableBlocks (plan : NativePlan) (id : ItemId) : Option (List BlockId) :=
  plan.blockPlans.lookup id

def sortItems (ids : List ItemId) : List ItemId := ids.insertionSort fun a b => a.index ≤ b.index

def sortBlocks (ids : List BlockId) : List BlockId := ids.insertionSort fun a b => a.index ≤ b.index

/-- The first id that has been there before. -/
def firstRepeated {α : Type} [DecidableEq α] : List α → List α → Option α
  | _, [] => none
  | seen, id :: rest => if id ∈ seen then some id else firstRepeated (id :: seen) rest

/-! ### The shape of a function -/

/-- A function's blocks in ascending order of ids. -/
abbrev Blocks := List BasicBlock

def Blocks.get (blocks : Blocks) (id : BlockId) : Option BasicBlock := blocks.find? (·.id = id)

/-- Every block one terminator can transfer control to. -/
def terminatorTargets : Terminator → List BlockId
  | .ret _ | .raise _ => []
  | .branch target => [target]
  | .condBranch _ thenBlock elseBlock => [thenBlock, elseBlock]
  | .switch _ _ cases => cases
  | .invoke _ _ _ _ _ okTarget errTargets => okTarget :: errTargets.map (·.target)

/-- The targets of a block that the function declares. -/
def declaredTargets (blocks : Blocks) (id : BlockId) : List BlockId :=
  match blocks.get id with
  | none => []
  | some block => (terminatorTargets block.terminator).filter fun target =>
      (blocks.get target).isSome

/-- The blocks `bb0` reaches, ascending. -/
def reachableBlocks (blocks : Blocks) : List BlockId :=
  if (blocks.get ⟨0⟩).isSome then
    sortBlocks (Breadth.reach (declaredTargets blocks) blocks.length ⟨0⟩)
  else []

/-- The instructions of the blocks that are reached, in ascending order of blocks. -/
def reachableInstructions (blocks : Blocks) (reachable : List BlockId) : List Instruction :=
  reachable.flatMap fun id => ((blocks.get id).map (·.instructions)).getD []

def calleeOf : Instruction → Option ItemId
  | .value _ _ (.call callee _ _ _) => some callee
  | _ => none

/-- Every function called directly from a block that is reached. An invoke is an edge of the
call graph although no native code is made of it. -/
def directCallees (blocks : Blocks) (reachable : List BlockId) : List ItemId :=
  reachable.flatMap fun id =>
    match blocks.get id with
    | none => []
    | some block => block.instructions.filterMap calleeOf ++
        match block.terminator with
        | .invoke callee _ _ _ _ _ _ => [callee]
        | _ => []

def definitionOf : Instruction → Option (ValueId × Ty)
  | .value result ty _ => some (result, ty)
  | _ => none

def allocOf : Instruction → Option ValueId
  | .value result _ .alloc => some result
  | _ => none

def storedSlot : Instruction → Option ValueId
  | .store slot _ _ => some slot
  | _ => none

/-- The declared types of the parameters and of all values that are defined in reach. -/
def definitions (function : Function) (blocks : Blocks) (reachable : List BlockId) :
    List (ValueId × Ty) :=
  function.params.map (fun param => (param.value, param.ty)) ++
    (reachableInstructions blocks reachable).filterMap definitionOf

/-- The results of every `alloc` in reach. -/
def allocSlots (blocks : Blocks) (reachable : List BlockId) : Finset ValueId :=
  ((reachableInstructions blocks reachable).filterMap allocOf).toFinset

/-- The blocks in reach that can transfer control to a block. -/
def predecessors (blocks : Blocks) (reachable : List BlockId) (id : BlockId) : List BlockId :=
  reachable.filter fun source => id ∈ declaredTargets blocks source

/-- What a block leaves behind of what its instructions give. -/
def given {F : Type} [DecidableEq F] (blocks : Blocks) (gives : Instruction → Option F)
    (id : BlockId) : Finset F :=
  (((blocks.get id).map (·.instructions)).getD []).filterMap gives |>.toFinset

/-- What is already true on every path from `bb0` to the start of a block. -/
def mustReach (blocks : Blocks) (reachable : List BlockId) (all entry : Finset ValueId)
    (gives : Instruction → Option ValueId) : BlockId → Finset ValueId :=
  MustFacts.facts ⟨0⟩ (predecessors blocks reachable) (given blocks gives) reachable all entry

/-! ### Refusals -/

structure Validator where
  source : SourceId
  resolve : Symbol → String
  registry : ItemRegistry
  displayTy : Ty → String
  functions : List Function

namespace Validator

section
variable (v : Validator)

def get (id : ItemId) : Option Function := v.functions.find? (·.id = id)

/-- Where a diagnostic about an item points. -/
def site (id : ItemId) : SourceId × Span :=
  match v.registry id with
  | some identity => (identity.source, identity.span)
  | none => (v.source, .empty 0)

def name (id : ItemId) : String := ItemRegistry.qualifiedName v.registry v.resolve id

def about (code : String) (id : ItemId) (message label : String) : Diagnostic :=
  { code, source := (v.site id).1, primarySpan := (v.site id).2, message,
    primaryLabel := some label }

/-- Structure that the verifier would have rejected. -/
def unverified (id : ItemId) (message label : String) : Diagnostic :=
  (v.about codes.unverifiedNir id message label).withNote
    "this NIR did not pass `nir::verify`; the native backend never generates code for it"

def interpreterHelp : String :=
  "`napitia run` executes this program with the interpreter, unchanged"

/-- The single function named `main`. -/
def findEntry : Except Diagnostic ItemId :=
  match (v.functions.filter fun f => v.resolve f.name = entryName).map (·.id) with
  | [] => throw { code := codes.missingEntry, source := v.source, primarySpan := .empty 0,
                  message := "a native build needs a `" ++ entryName ++
                    "` function, and this module has none",
                  help := some ("declare `func " ++ entryName ++ "() -> i64` or `func " ++
                    entryName ++ "() -> unit`") }
  | [single] => pure single
  | first :: second :: _ => throw
      (({ code := codes.duplicateEntry, source := (v.site second).1,
          primarySpan := (v.site second).2,
          message := "this module declares more than one `" ++ entryName ++ "` function" :
            Diagnostic }.withPrimaryLabel "a native build has exactly one entry point").withLabelIn
        (v.site first).1 (v.site first).2 "already declared here")

def bb (id : BlockId) : String := "bb" ++ toString id.index

def inBlock (id : ItemId) (block : BlockId) : String :=
  "function `" ++ v.name id ++ "`: " ++ bb block

/-- A function's blocks keyed by id. -/
def blocksById (function : Function) : Except Diagnostic Blocks :=
  match firstRepeated [] (function.blocks.map (·.id)) with
  | some id => throw (v.unverified function.id
      ("function `" ++ v.name function.id ++ "` declares " ++ bb id ++ " twice")
      "duplicate block id")
  | none =>
    let blocks : Blocks := function.blocks.insertionSort fun a b => a.id.index ≤ b.id.index
    if (blocks.get ⟨0⟩).isNone then throw (v.unverified function.id
      ("function `" ++ v.name function.id ++ "` has no entry block bb0") "no entry block")
    else pure blocks

/-- A function declared in another file is from another module than the one being built. -/
def checkModuleOrigin (function : Function) : Except Diagnostic Unit :=
  match v.registry function.id with
  | none => pure ()
  | some identity =>
    if identity.source = v.source then pure ()
    else throw ((v.about codes.multiModuleBuild function.id
        ("`" ++ v.name function.id ++ "` is declared in another module than the one being built")
        "no native build spans more than one module").withHelp
      "`napitia build` compiles a single `.npt` file")

def unsupportedType (id : ItemId) (ty : Ty) (position : String) : Diagnostic :=
  v.about codes.unsupportedType id
    ("`" ++ v.displayTy ty ++ "` is not a type the native backend represents, and it is " ++
      position ++ " `" ++ v.name id ++ "`")
    "native code uses `i64`, `bool` and `unit`"

def checkEntry (function : Function) : Except Diagnostic Unit := do
  let name := v.name function.id
  if !function.params.isEmpty then
    throw (v.about codes.entryParameters function.id
      ("`" ++ name ++ "` must take no parameters, found " ++ toString function.params.length)
      "the native entry point receives no arguments")
  if scalarOf function.returnType ≠ some .int ∧ scalarOf function.returnType ≠ some .unit then
    throw ((v.about codes.entryReturnType function.id
        ("`" ++ name ++ "` returns `" ++ v.displayTy function.returnType ++
          "`, which the native entry point cannot produce")
        "native `main` returns `i64` or `unit`").withHelp
      "an `i64` result becomes the process exit status; `unit` exits 0")

def checkParam (id : ItemId) (param : Param) : Except Diagnostic Unit := do
  if param.take then
    throw (v.about codes.unsupportedInstruction id
      ("`" ++ v.name id ++ "` declares a `take` parameter, which transfers resource ownership")
      "no resource is natively lowered")
  if scalarOf param.ty = none then throw (v.unsupportedType id param.ty "a parameter of")

def checkSignature (function : Function) (isEntry : Bool) : Except Diagnostic Unit := do
  let name := v.name function.id
  if !function.typeParams.isEmpty then
    throw (v.about codes.genericCode function.id
      ("`" ++ name ++ "` is generic, and the native backend does not monomorphize")
      "generic function")
  if !function.requirements.isEmpty then
    throw (v.about codes.capabilityDispatch function.id
      ("`" ++ name ++ "` declares a capability requirement, which dispatches indirectly")
      "`uses` requirement")
  if !function.raises.isEmpty then
    throw (v.about codes.fallibleFunction function.id
      ("`" ++ name ++ "` declares raised errors, and there is no native typed-failure runtime")
      "`raises` clause")
  if isEntry then v.checkEntry function
  function.params.forM (v.checkParam function.id)
  if scalarOf function.returnType = none then
    throw (v.unsupportedType function.id function.returnType "the result of")

/-- The declared type of every value that is defined in reach, by each value once. -/
def valueTypes (function : Function) (blocks : Blocks) (reachable : List BlockId) :
    Except Diagnostic (List (ValueId × Ty)) :=
  match firstRepeated [] ((definitions function blocks reachable).map (·.1)) with
  | some value => throw (v.unverified function.id
      ("function `" ++ v.name function.id ++ "` defines %" ++ toString value.index ++
        " more than once") "duplicate value definition")
  | none => pure (definitions function blocks reachable)

/-! ### Instructions -/

section
variable (function : Function) (block : BlockId) (types : List (ValueId × Ty))
  (slots live : Finset ValueId)

/-- One operand used as an ordinary value. -/
def operand (value : ValueId) : Except Diagnostic Scalar := do
  let uses := v.inBlock function.id block ++ " uses %" ++ toString value.index
  if value ∈ slots then
    throw (v.about codes.slotUsedAsValue function.id
      (v.inBlock function.id block ++ " uses the slot %" ++ toString value.index ++ " as a value")
      "a slot is only ever stored into or loaded from")
  if value ∉ live then
    throw (v.unverified function.id
      (uses ++ ", which is not defined on every path that reaches it")
      "value used outside its definition's reach")
  match types.lookup value with
  | none => throw (v.unverified function.id
      (uses ++ ", which no reachable instruction defines") "undefined value")
  | some ty =>
    match scalarOf ty with
    | some scalar => pure scalar
    | none => throw (v.unsupportedType function.id ty "used inside")

def mismatch (result : ValueId) (what : String) : Diagnostic :=
  v.unverified function.id
    (v.inBlock function.id block ++ "'s %" ++ toString result.index ++ " " ++ what)
    "operand type mismatch"

def unsupportedInstruction (what why : String) : Diagnostic :=
  (v.about codes.unsupportedInstruction function.id
    (v.inBlock function.id block ++ " " ++ what) why).withHelp interpreterHelp

def unsupportedTerminator (what why : String) : Diagnostic :=
  (v.about codes.unsupportedTerminator function.id
    (v.inBlock function.id block ++ " " ++ what) why).withHelp interpreterHelp

def unsupportedConstant (what : String) : Diagnostic :=
  v.about codes.unsupportedType function.id
    (v.inBlock function.id block ++ " builds " ++ what ++ " constant")
    "native code uses `i64`, `bool` and `unit`"

def unsupportedOperator (operator : String) : Diagnostic :=
  ((v.about codes.unsupportedOperator function.id
    (v.inBlock function.id block ++ " uses `" ++ operator ++ "`")
    "this operator's exceptional case has no native behavior yet").withNote
      ("the interpreter answers it with a runtime error, and Alpha 0.2.0 has no native runtime " ++
        "to raise one")).withHelp interpreterHelp

def binaryInt (result : ValueId) (resultScalar : Scalar) (a b : ValueId) :
    Except Diagnostic Unit := do
  let left ← v.operand function block types slots live a
  let right ← v.operand function block types slots live b
  if left ≠ .int ∨ right ≠ .int ∨ resultScalar ≠ .int then
    throw (v.mismatch function block result "combines operands that are not both `i64`")

def checkConst (result : ValueId) (resultScalar : Scalar) : Const → Except Diagnostic Unit
  | .int _ => unless resultScalar = .int do refuse
  | .bool _ => unless resultScalar = .bool do refuse
  | .unit => unless resultScalar = .unit do refuse
  | .float _ => throw (v.unsupportedConstant function block "a float")
  | .char _ => throw (v.unsupportedConstant function block "a char")
  | .str _ => throw (v.unsupportedConstant function block "a string")
where
  refuse : Except Diagnostic Unit :=
    throw (v.mismatch function block result "is a constant declared with a type it is not")

def checkCompare (result : ValueId) (resultScalar : Scalar) (a b : ValueId) :
    Except Diagnostic Scalar := do
  let left ← v.operand function block types slots live a
  let right ← v.operand function block types slots live b
  if left ≠ right ∨ resultScalar ≠ .bool then
    throw (v.mismatch function block result "compares operands it cannot compare")
  pure left

/-- The interpreter has no order on `unit`. -/
def checkOrdered (result : ValueId) (resultScalar : Scalar) (a b : ValueId) :
    Except Diagnostic Unit := do
  let left ← v.checkCompare function block types slots live result resultScalar a b
  if left = .unit then
    throw (v.unsupportedOperator function block "ordered comparison of `unit`")

/-- Arguments against the parameters they are passed to, from position `index` on. -/
def checkArguments (targetName : String) : ℕ → List (ValueId × Param) → Except Diagnostic Unit
  | _, [] => pure ()
  | index, (arg, param) :: rest => do
    let actual ← v.operand function block types slots live arg
    if some actual ≠ scalarOf param.ty then
      throw (v.about codes.callSignatureMismatch function.id
        (v.inBlock function.id block ++ " passes a `" ++ actual.asStr ++ "` as argument " ++
          toString index ++ " of `" ++ targetName ++ "`, which expects `" ++
          v.displayTy param.ty ++ "`")
        "direct calls match their callee exactly")
    checkArguments targetName (index + 1) rest

def checkCall (result : ValueId) (resultScalar : Scalar) (callee : ItemId) (typeArgs : List Ty)
    (args : List ValueId) (evidence : List Evidence) : Except Diagnostic Unit := do
  let here := v.inBlock function.id block
  if !typeArgs.isEmpty then
    throw (v.about codes.genericCode function.id
      (here ++ " calls a generic function with type arguments")
      "the native backend does not monomorphize")
  if !evidence.isEmpty then
    throw (v.about codes.capabilityDispatch function.id
      (here ++ " supplies capability evidence to a call")
      "the native backend emits direct calls only")
  match v.get callee with
  | none => throw ((v.about codes.unknownCallee function.id
      (here ++ " calls function id " ++ toString callee.index ++
        ", which this module does not define")
      "every native callee is compiled alongside its caller").withHelp
        "the native backend has no FFI")
  | some target =>
    let targetName := v.name callee
    if args.length ≠ target.params.length then
      throw (v.about codes.callSignatureMismatch function.id
        (here ++ " passes " ++ toString args.length ++ " argument(s) to `" ++ targetName ++
          "`, which takes " ++ toString target.params.length)
        "direct calls match their callee exactly")
    v.checkArguments function block types slots live targetName 0 (args.zip target.params)
    if scalarOf target.returnType ≠ some resultScalar then
      throw (v.about codes.callSignatureMismatch function.id
        (here ++ "'s %" ++ toString result.index ++ " takes the result of `" ++ targetName ++
          "` as a type it does not return")
        "direct calls match their callee exactly")

def checkValue (result : ValueId) (ty : Ty) (kind : ValueKind) : Except Diagnostic Unit :=
  -- A result with no representation is reported before the operation that gives it.
  match scalarOf ty with
  | none => throw (v.unsupportedType function.id ty "produced inside")
  | some resultScalar =>
    match kind with
    | .alloc => pure ()
    | .const c => v.checkConst function block result resultScalar c
    | .load slot => do
      if slot ∉ slots then
        throw (v.unverified function.id
          (v.inBlock function.id block ++ " loads %" ++ toString slot.index ++
            ", which no reachable `alloc` produced") "unknown slot")
      if (types.lookup slot).bind scalarOf ≠ some resultScalar then
        throw (v.mismatch function block result "loads a slot of another type")
    | .add a b | .sub a b | .mul a b | .and a b | .or a b | .xor a b =>
      v.binaryInt function block types slots live result resultScalar a b
    | .div _ _ => throw (v.unsupportedOperator function block "div")
    | .rem _ _ => throw (v.unsupportedOperator function block "rem")
    | .shl _ _ => throw (v.unsupportedOperator function block "shl")
    | .shr _ _ => throw (v.unsupportedOperator function block "shr")
    | .neg a => do
      let scalar ← v.operand function block types slots live a
      if scalar ≠ .int ∨ resultScalar ≠ .int then
        throw (v.mismatch function block result "negates something that is not an `i64`")
    | .not a => do
      let scalar ← v.operand function block types slots live a
      if scalar ≠ resultScalar ∨ scalar = .unit then
        throw (v.mismatch function block result "applies `not` to something it cannot invert")
    | .eq a b | .ne a b => do
      let _ ← v.checkCompare function block types slots live result resultScalar a b
    | .lt a b | .le a b | .gt a b | .ge a b =>
      v.checkOrdered function block types slots live result resultScalar a b
    | .call callee typeArgs args evidence =>
      v.checkCall function block types slots live result resultScalar callee typeArgs args evidence
    | .protocolCall .. => throw ((v.about codes.capabilityDispatch function.id
        (v.inBlock function.id block ++ " dispatches through capability evidence")
        "the native backend emits direct calls only").withHelp interpreterHelp)
    | .recordCreate .. => throw (v.unsupportedInstruction function block "constructs a record"
        "records are not natively lowered")
    | .recordField .. => throw (v.unsupportedInstruction function block "reads a record field"
        "records are not natively lowered")
    | .variantCreate .. => throw (v.unsupportedInstruction function block "constructs a variant"
        "variants are not natively lowered")
    | .variantPayload .. => throw (v.unsupportedInstruction function block
        "reads a variant payload" "variants are not natively lowered")
    | .move _ => throw (v.unsupportedInstruction function block "moves a resource"
        "resources are not natively lowered")
    | .deferCapture _ => throw (v.unsupportedInstruction function block
        "captures a resource for a `defer`" "deferred cleanup is not natively lowered")
    | .placeRead .. => throw (v.unsupportedInstruction function block "reads an aggregate place"
        "aggregates are not natively lowered")
    | .observePlace .. => throw (v.unsupportedInstruction function block
        "begins a scoped observation" "observations are not natively lowered")

def checkStore (slot value : ValueId) (mode : OwnershipMode) : Except Diagnostic Unit := do
  let here := v.inBlock function.id block
  if mode ≠ .observe then
    throw (v.about codes.unsupportedInstruction function.id
      (here ++ " stores by transferring ownership") "no resource is natively lowered")
  if slot ∉ slots then
    throw (v.unverified function.id (here ++ " stores into %" ++ toString slot.index ++
      ", which no reachable `alloc` produced") "unknown slot")
  let stored ← v.operand function block types slots live value
  if (types.lookup slot).bind scalarOf ≠ some stored then
    throw (v.unverified function.id (here ++ " stores a " ++ stored.asStr ++
      " into a slot that is not one") "slot type mismatch")

def checkInstruction : Instruction → Except Diagnostic Unit
  | .value result ty kind => v.checkValue function block types slots live result ty kind
  | .store slot value mode => v.checkStore function block types slots live slot value mode
  | .drop _ => throw (v.unsupportedInstruction function block "drops a resource"
      "resources are not natively lowered")
  | .decomposeVariant .. => throw (v.unsupportedInstruction function block
      "takes a variant apart" "variants are not natively lowered")
  | .storePlace .. => throw (v.unsupportedInstruction function block
      "reinitializes an aggregate's field" "aggregates are not natively lowered")
  | .endObserve _ => throw (v.unsupportedInstruction function block
      "ends a scoped observation" "observations are not natively lowered")

def checkTarget (blocks : Blocks) (target : BlockId) : Except Diagnostic Unit :=
  if (blocks.get target).isSome then pure ()
  else throw (v.unverified function.id
    (v.inBlock function.id block ++ " branches to " ++ bb target ++ ", which it does not declare")
    "unknown branch target")

def checkTerminator (blocks : Blocks) : Terminator → Except Diagnostic Unit
  | .ret (some value) => do
    let actual ← v.operand function block types slots live value
    if some actual ≠ scalarOf function.returnType then
      throw (v.unverified function.id
        (v.inBlock function.id block ++ " returns a `" ++ actual.asStr ++
          "` from a function declared `" ++ v.displayTy function.returnType ++ "`")
        "return type mismatch")
  | .ret none =>
    if scalarOf function.returnType ≠ some .unit then
      throw (v.unverified function.id
        (v.inBlock function.id block ++ " returns no value from a function declared `" ++
          v.displayTy function.returnType ++ "`") "return type mismatch")
    else pure ()
  | .branch target => v.checkTarget function block blocks target
  | .condBranch condition thenBlock elseBlock => do
    let scalar ← v.operand function block types slots live condition
    if scalar ≠ .bool then
      throw (v.unverified function.id
        (v.inBlock function.id block ++ " branches on a `" ++ scalar.asStr ++ "`")
        "a condition is a `bool`")
    v.checkTarget function block blocks thenBlock
    v.checkTarget function block blocks elseBlock
  | .switch .. => throw (v.unsupportedTerminator function block "switches on a variant case"
      "variants are not natively lowered")
  | .invoke .. => throw (v.unsupportedTerminator function block "invokes a fallible function"
      "there is no native typed-failure runtime")
  | .raise _ => throw (v.unsupportedTerminator function block "raises an error"
      "there is no native typed-failure runtime")

end

/-! ### A function, and all of them -/

section
variable (function : Function) (blocks : Blocks) (types : List (ValueId × Ty))
  (slots : Finset ValueId)

/-- The instructions of a block one after the other, with what is defined by then, and its
terminator behind them. -/
def checkSteps (id : BlockId) (terminator : Terminator) :
    List Instruction → Finset ValueId → Except Diagnostic Unit
  | [], live => v.checkTerminator function id types slots live blocks terminator
  | instruction :: rest, live => do
    v.checkInstruction function id types slots live instruction
    match instruction with
    | .value result _ _ => checkSteps id terminator rest (insert result live)
    | _ => checkSteps id terminator rest live

/-- Every load of a block follows a store to its slot. -/
def checkLoads (id : BlockId) : List Instruction → Finset ValueId → Except Diagnostic Unit
  | [], _ => pure ()
  | .value _ _ (.load slot) :: rest, stored =>
    if slot ∈ stored then checkLoads id rest stored
    else throw (v.about codes.uninitializedSlotLoad function.id
      ("function `" ++ v.name function.id ++ "`: " ++ bb id ++ " loads %" ++
        toString slot.index ++ " on a path that never stored it")
      "the native backend never invents a slot's first value")
  | .store slot _ _ :: rest, stored => checkLoads id rest (insert slot stored)
  | _ :: rest, stored => checkLoads id rest stored

def checkSlotInitialization (reachable : List BlockId) : Except Diagnostic Unit :=
  if slots = ∅ then pure ()
  else reachable.forM fun id =>
    match blocks.get id with
    | none => pure ()
    | some block => v.checkLoads function id block.instructions
        (mustReach blocks reachable slots ∅ storedSlot id)

end

/-- Every block in reach, in ascending order, and then the loads of all of them. -/
def checkBody (function : Function) (reachable : List BlockId) : Except Diagnostic Unit := do
  let blocks ← v.blocksById function
  let types ← v.valueTypes function blocks reachable
  let slots := allocSlots blocks reachable
  let parameters := (function.params.map (·.value)).toFinset
  let available := mustReach blocks reachable (types.map (·.1)).toFinset parameters
    fun instruction => (definitionOf instruction).map (·.1)
  reachable.forM fun id =>
    match blocks.get id with
    | none => pure ()
    | some block => v.checkSteps function blocks types slots id block.terminator
        block.instructions (available id ∪ parameters)
  v.checkSlotInitialization function blocks slots reachable

/-- One function in reach. It is reported for one reason at most. -/
def validateFunction (function : Function) (isEntry : Bool) (reachable : List BlockId) :
    Except Diagnostic Unit := do
  v.checkModuleOrigin function
  v.checkSignature function isEntry
  v.checkBody function reachable

/-- The functions a function calls directly, none where its blocks cannot be keyed. -/
def calleesOf (id : ItemId) : List ItemId :=
  match v.get id with
  | none => []
  | some function =>
    match v.blocksById function with
    | .error _ => []
    | .ok blocks => directCallees blocks (reachableBlocks blocks)

/-- The functions `main` reaches through direct calls, in the order they are found in. -/
def reachedFunctions (entry : ItemId) : List ItemId :=
  Breadth.reach (fun id => (v.calleesOf id).filter fun callee => (v.get callee).isSome)
    v.functions.length entry

def blockPlan (id : ItemId) : Option (ItemId × List BlockId) :=
  (v.get id).map fun function => (id, match v.blocksById function with
    | .error _ => []
    | .ok blocks => reachableBlocks blocks)

def errorOf {α : Type} : Except Diagnostic α → Option Diagnostic
  | .error diagnostic => some diagnostic
  | .ok _ => none

/-- What is wrong with one function in reach, unless its blocks could not be keyed, which has
been reported. -/
def functionProblem (entry : ItemId) (blockPlans : List (ItemId × List BlockId)) (id : ItemId) :
    Option Diagnostic := do
  let function ← v.get id
  match v.blocksById function with
  | .error _ => none
  | .ok _ =>
    match blockPlans.lookup id with
    | none => some (v.unverified id
        ("no block plan was built for function id " ++ toString id.index)
        "missing validation metadata")
    | some reachable => errorOf (v.validateFunction function (id = entry) reachable)

/-- The call edges between functions in reach, ascending. -/
def callEdges (functions : List ItemId) (id : ItemId) : List ItemId :=
  (sortItems ((v.calleesOf id).filter (· ∈ functions))).dedup

/-- The strongly connected components in ascending order, each of them ascending. -/
def stronglyConnectedComponents (nodes : List ItemId) (edges : ItemId → List ItemId) :
    List (List ItemId) :=
  ((Components.components edges nodes).map sortItems).insertionSort fun a b =>
    (a.head?.map (·.index)).getD 0 ≤ (b.head?.map (·.index)).getD 0

/-- A component that calls itself, told at its smallest member. -/
def cycleProblem (edges : ItemId → List ItemId) : List ItemId → Option Diagnostic
  | [] => none
  | root :: others =>
    if others ≠ [] ∨ root ∈ edges root then
      let members := (root :: others).map v.name
      let description :=
        if others = [] then "`" ++ String.join members ++ "` calls itself"
        else "`" ++ String.intercalate "`, `" members ++ "` call each other"
      some ((v.about codes.recursiveCallGraph root
        ("the native backend cannot compile a recursive call graph: " ++ description)
        "recursion is not natively lowered").withHelp interpreterHelp)
    else none

/-- Each cycle of the call graph is reported once. -/
def reportCycles (functions : List ItemId) : List Diagnostic :=
  (stronglyConnectedComponents functions (v.callEdges functions)).filterMap
    (v.cycleProblem (v.callEdges functions))

end
end Validator

/-- The smallest span, by where it starts and then by where it ends. -/
def leastSpan : List Span → Option Span
  | [] => none
  | span :: rest =>
    match leastSpan rest with
    | none => some span
    | some least =>
      if span.start < least.start ∨ (span.start = least.start ∧ span.stop ≤ least.stop) then
        some span
      else some least

def importProblems (source : SourceId) (imports : List Span) : List Diagnostic :=
  match leastSpan imports with
  | none => []
  | some span => [
      { code := codes.multiModuleBuild, source, primarySpan := span,
        message := ("the native backend compiles one module at a time; " ++
          "this source declares an import"),
        primaryLabel := some "no native build spans more than one module",
        help := some ("`napitia check`, `napitia ir` and `napitia run` still accept this program") }]

/-- One refusal for each function that reuses the id of one before it. -/
def duplicateFunctions (v : Validator) : List ItemId → List Function → List Diagnostic
  | _, [] => []
  | seen, function :: rest =>
    (if function.id ∈ seen then
      [v.unverified function.id
        ("two functions in this module share the id " ++ toString function.id.index)
        ("`" ++ v.name function.id ++ "` reuses another function's id")]
    else []) ++ duplicateFunctions v (function.id :: seen) rest

section
variable (m : Module) (source : SourceId) (resolve : Symbol → String) (registry : ItemRegistry)
  (displayTy : Ty → String)

def validator : Validator where
  source := source
  resolve := resolve
  registry := registry
  displayTy := displayTy
  functions := m.functions.insertionSort fun a b => a.id.index ≤ b.id.index

/-- The plan for all that `main` reaches, or the reasons why there is none. -/
def planFrom (v : Validator) (earlier : List Diagnostic) (entry : ItemId) :
    Except (List Diagnostic) NativePlan :=
  let reached := v.reachedFunctions entry
  let blockPlans := reached.filterMap v.blockPlan
  let functions := sortItems reached
  let problems := earlier ++
    reached.filterMap (fun id => (v.get id).bind fun f => Validator.errorOf (v.blocksById f)) ++
    functions.filterMap (v.functionProblem entry blockPlans) ++ v.reportCycles functions
  if problems ≠ [] then throw problems
  else
    match (v.get entry).bind fun f => scalarOf f.returnType with
    | none => throw [v.unverified entry
        ("the entry function's result type survived validation without a native " ++
          "representation") "missing validation metadata"]
    | some entryResult => pure
        { entry, entryResult, functions,
          blockPlans := functions.filterMap fun id => (blockPlans.lookup id).map (id, ·) }

def validate (target : String) (imports : List Span) : Except (List Diagnostic) NativePlan :=
  let v := validator m source resolve registry displayTy
  if target ≠ targetTriple then
    throw [{ code := codes.unsupportedTarget, source, primarySpan := .empty 0,
             message := "the native backend cannot target `" ++ target ++ "`",
             help := some ("Alpha 0.2.0 compiles for `" ++ targetTriple ++ "` and nothing else") }]
  else if duplicateFunctions v [] m.functions ≠ [] then
    throw (duplicateFunctions v [] m.functions)
  else
    match v.findEntry with
    | .error diagnostic => throw (importProblems source imports ++ [diagnostic])
    | .ok entry => planFrom v (importProblems source imports) entry

end
end Napitia.Native

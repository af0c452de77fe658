import Napitia.Lib.Worklist
import Napitia.Verify.Affine
import Mathlib.Data.Finset.Image

/-!
# The verifier's observation analysis

Every observation a function begins is followed along its control flow: which are
active, which values carry one, and which ownership operations touch a place one of
them holds. The facts of a block are joined over the predecessors that have any, run
to a fixed point, and reported against once it is reached.
-/
namespace Napitia.Verify
open Nir

/-- A place reaches everything its projections are a beginning of. -/
def isAncestorOf (a b : Place ValueId) : Bool :=
  a.root = b.root ∧ a.projections <+: b.projections

def placesOverlap (a b : Place ValueId) : Bool := isAncestorOf a b || isAncestorOf b a

inductive ObservationCode where
  | duplicateObservationId | unknownObservationId | observationEndNotInnermost
  | observationActiveAtExit | observationStateConflict | observerUsedAfterEnd
  | ownershipWhileObserved
  deriving DecidableEq, Repr

/-- A diagnostic with the block and the instruction it was found at. -/
structure Located where
  block : BlockId
  index : ℕ
  code : ObservationCode
  deriving DecidableEq, Repr

/-- The observations active at a point, the innermost first, or that two paths
disagree about them. -/
inductive ObservationStack where
  | active (stack : List ObservationId)
  | conflict
  deriving DecidableEq, Repr

/-- Which values may carry which observations. -/
abbrev CarrierFacts := Finset (ValueId × ObservationId)

structure ObservationState where
  stack : ObservationStack
  carriers : CarrierFacts
  deriving DecidableEq

def carriersOf (facts : CarrierFacts) (value : ValueId) : Finset ObservationId :=
  (facts.filter (·.1 = value)).image (·.2)

def setCarriers (facts : CarrierFacts) (value : ValueId) (carried : Finset ObservationId) :
    CarrierFacts :=
  facts.filter (·.1 ≠ value) ∪ carried.image fun id => (value, id)

/-! ### What an instruction reads -/

def operandsOf : ValueKind → List ValueId
  | .alloc | .const _ => []
  | .load slot => [slot]
  | .neg a | .not a => [a]
  | .add a b | .sub a b | .mul a b | .div a b | .rem a b | .and a b | .or a b | .xor a b
  | .shl a b | .shr a b | .eq a b | .ne a b | .lt a b | .le a b | .gt a b | .ge a b => [a, b]
  | .call _ _ args _ => args
  | .recordCreate _ _ fields => fields
  | .recordField base _ _ => [base]
  | .variantCreate _ _ _ payload => payload
  | .variantPayload base _ _ _ => [base]
  | .protocolCall _ _ _ _ args => args
  | .move source | .deferCapture source => [source]
  | .placeRead place _ | .observePlace _ place => [place.root]

/-- A store writes its slot and does not read it. -/
def instructionOperands : Instruction → List ValueId
  | .value _ _ kind => operandsOf kind
  | .store _ value _ => [value]
  | .drop value => [value]
  | .decomposeVariant value _ _ taken => value :: taken.map (·.2)
  | .storePlace place value => [place.root, value]
  | .endObserve _ => []

def terminatorOperands : Terminator → List ValueId
  | .ret (some value) | .raise value => [value]
  | .ret none | .branch _ => []
  | .condBranch condition _ _ => [condition]
  | .switch scrutinee _ _ => [scrutinee]
  | .invoke _ _ args _ _ _ _ => args

/-- Every edge a terminator can take, with the slot that edge itself writes. -/
def terminatorEdges : Terminator → List (BlockId × Option ValueId)
  | .invoke _ _ _ _ okSlot okTarget errTargets =>
    (okTarget, some okSlot) :: errTargets.map fun t => (t.target, some t.slot)
  | .branch target => [(target, none)]
  | .condBranch _ thenBlock elseBlock => [(thenBlock, none), (elseBlock, none)]
  | .switch _ _ cases => cases.map fun target => (target, none)
  | .ret _ | .raise _ => []

/-! ### What the analysis knows of a function -/

/-- The slot each load reads, the last of them for a result defined twice. -/
def loadOrigins (function : Function) : List (ValueId × ValueId) :=
  (function.blocks.flatMap (·.instructions)).filterMap fun instruction =>
    match instruction with
    | .value result _ (.load slot) => some (result, slot)
    | _ => none

structure ObservationContext where
  origin : ValueId → ValueId
  isAffine : ValueId → Bool
  /-- The `take` flags of every function of the module. -/
  take : ItemId → Option (List Bool)
  /-- The place each observation begins at. -/
  begins : ObservationId → Option (Place ValueId)

variable (ctx : ObservationContext)

def ObservationContext.canonical (place : Place ValueId) : Place ValueId :=
  ⟨ctx.origin place.root, place.projections⟩

def ObservationContext.rootOf (value : ValueId) : Place ValueId := ⟨ctx.origin value, []⟩

/-- Whether an argument position transfers, which it does when the callee's flags
are missing or of another length. -/
def argumentTransfers (take : Option (List Bool)) (argsLen index : ℕ) : Bool :=
  match take with
  | some flags => if flags.length = argsLen then (flags[index]?).getD true else true
  | none => true

/-- The roots of the arguments a call transfers. -/
def ObservationContext.transferred (callee : ItemId) (args : List ValueId) :
    List (Place ValueId) :=
  args.zipIdx.filterMap fun (arg, index) =>
    if ctx.isAffine arg && argumentTransfers (ctx.take callee) args.length index then
      some (ctx.rootOf arg)
    else none

/-- The roots of the affine ones. -/
def ObservationContext.affineRoots (values : List ValueId) : List (Place ValueId) :=
  (values.filter ctx.isAffine).map ctx.rootOf

/-- The places an instruction moves, destroys or overwrites. -/
def consumedPlaces : Instruction → List (Place ValueId)
  | .value _ _ kind =>
    match kind with
    | .placeRead place .transfer => [ctx.canonical place]
    | .move source | .deferCapture source => ctx.affineRoots [source]
    | .recordCreate _ _ fields => ctx.affineRoots fields
    | .variantCreate _ _ _ payload => ctx.affineRoots payload
    | .call callee _ args _ => ctx.transferred callee args
    | _ => []
  | .store slot value mode =>
    (if mode = .transfer then ctx.affineRoots [value] else []) ++
      if ctx.isAffine slot then [⟨slot, []⟩] else []
  | .drop value => ctx.affineRoots [value]
  | .decomposeVariant value _ _ _ => [ctx.rootOf value]
  | .storePlace place value => ctx.canonical place :: ctx.affineRoots [value]
  | .endObserve _ => []

/-- The places a terminator takes apart or transfers. -/
def terminatorConsumes : Terminator → List (Place ValueId)
  | .switch scrutinee _ _ => ctx.affineRoots [scrutinee]
  | .invoke callee _ args _ _ _ _ => ctx.transferred callee args
  | _ => []

/-- The place whose observations a value-producing instruction hands on. -/
def observationSource : ValueKind → Option (Place ValueId)
  | .placeRead place _ => some (ctx.canonical place)
  | .recordField base record field =>
    some ⟨ctx.origin base, [.field record ⟨field⟩]⟩
  | .variantPayload base _ _ _ => some (ctx.rootOf base)
  | .move source | .deferCapture source => some (ctx.rootOf source)
  | _ => none

/-! ### The transfer of one block -/

def checkUses (operands : List ValueId) (stack : List ObservationId) (carriers : CarrierFacts) :
    List ObservationCode :=
  operands.flatMap fun operand =>
    if ∀ id ∈ carriersOf carriers operand, id ∈ stack then [] else [.observerUsedAfterEnd]

def checkConsumed (places : List (Place ValueId)) (stack : List ObservationId) :
    List ObservationCode :=
  places.flatMap fun place =>
    if stack.any fun id => (ctx.begins id).any fun begin =>
        placesOverlap (ctx.canonical begin) place then
      [.ownershipWhileObserved]
    else []

/-- What the values carry after an instruction. -/
def carryInstruction (carriers : CarrierFacts) : Instruction → CarrierFacts
  | .value result _ kind =>
    setCarriers carriers result (match kind with
      | .observePlace observation _ => {observation}
      | .load slot => carriersOf carriers slot
      | kind => match observationSource ctx kind with
        | some place => carriersOf carriers place.root
        | none => ∅)
  | .store slot value mode =>
    setCarriers carriers slot (match mode with
      | .observe => carriersOf carriers value
      | .transfer => ∅)
  | _ => carriers

/-- The observations active after an instruction, and what is wrong with it. -/
def activateInstruction (stack : List ObservationId) :
    Instruction → List ObservationId × List ObservationCode
  | .value _ _ (.observePlace observation _) =>
    if observation ∈ stack then (stack, [.duplicateObservationId])
    else (observation :: stack, [])
  | .endObserve observation =>
    if (ctx.begins observation).isNone then (stack, [])
    else if stack.head? = some observation then (stack.tail, [])
    else if observation ∈ stack then
      ((stack.dropWhile (· ≠ observation)).tail, [.observationEndNotInnermost])
    else (stack, [.observationEndNotInnermost])
  | _ => (stack, [])

/-- The instructions of a block from one of them on. -/
def transferInstructions (block : BlockId) : ℕ → List Instruction → List ObservationId →
    CarrierFacts → List ObservationId × CarrierFacts × List Located
  | _, [], stack, carriers => (stack, carriers, [])
  | index, instruction :: rest, stack, carriers =>
    let codes := checkUses (instructionOperands instruction) stack carriers ++
      checkConsumed ctx (consumedPlaces ctx instruction) stack
    let (stack', wrong) := activateInstruction ctx stack instruction
    let (last, carried, located) :=
      transferInstructions block (index + 1) rest stack' (carryInstruction ctx carriers instruction)
    (last, carried, (codes ++ wrong).map (⟨block, index, ·⟩) ++ located)

/-- Nothing is checked against a state no path proved. -/
def observationTransfer (block : BasicBlock) (state : ObservationState) :
    ObservationState × List Located :=
  match state.stack with
  | .conflict => (state, [])
  | .active stack =>
    let (last, carried, located) :=
      transferInstructions ctx block.id 0 block.instructions stack state.carriers
    let codes := checkUses (terminatorOperands block.terminator) last carried ++
      checkConsumed ctx (terminatorConsumes ctx block.terminator) last
    (⟨.active last, carried⟩, located ++ codes.map (⟨block.id, block.instructions.length, ·⟩))

/-! ### The analysis of a function -/

/-- Every instruction of a function with its block and its index in it. -/
def sites (function : Function) : List (BlockId × ℕ × Instruction) :=
  function.blocks.flatMap fun block =>
    block.instructions.zipIdx.map fun (instruction, index) => (block.id, index, instruction)

/-- Sites in the order of their block and index. -/
def sortSites {α : Type} (found : List (BlockId × ℕ × α)) : List (BlockId × ℕ × α) :=
  found.mergeSort fun a b =>
    a.1.index < b.1.index || (a.1.index = b.1.index && a.2.1 ≤ b.2.1)

def beginSites (function : Function) : List (BlockId × ℕ × ObservationId × Place ValueId) :=
  sortSites ((sites function).filterMap fun (block, index, instruction) =>
    match instruction with
    | .value _ _ (.observePlace observation place) => some (block, index, observation, place)
    | _ => none)

def endSites (function : Function) : List (BlockId × ℕ × ObservationId) :=
  sortSites ((sites function).filterMap fun (block, index, instruction) =>
    match instruction with
    | .endObserve observation => some (block, index, observation)
    | _ => none)

abbrev Begins := AList (fun _ : ObservationId => Place ValueId)

/-- The first begin of every observation, and a diagnostic for each later one. -/
def collectBegins : List (BlockId × ℕ × ObservationId × Place ValueId) → Begins →
    Begins × List Located
  | [], begins => (begins, [])
  | (block, index, observation, place) :: rest, begins =>
    if (begins.lookup observation).isSome then
      let (collected, located) := collectBegins rest begins
      (collected, ⟨block, index, .duplicateObservationId⟩ :: located)
    else collectBegins rest (begins.insert observation place)

def entry : BlockId := ⟨0⟩

/-- A repeated id names the last block that has it. -/
def blockById (function : Function) (id : BlockId) : Option BasicBlock :=
  function.blocks.reverse.find? (·.id = id)

def successors (function : Function) (id : BlockId) : List BlockId :=
  (function.blocks.filter (·.id = id)).flatMap fun block =>
    (terminatorEdges block.terminator).map (·.1)

def predecessors (function : Function) (id : BlockId) : List (BlockId × Option ValueId) :=
  function.blocks.flatMap fun block =>
    (terminatorEdges block.terminator).filterMap fun (target, written) =>
      if target = id then some (block.id, written) else none

theorem mem_sites {f : Function} {block : BasicBlock} {i : Instruction} (hblock : block ∈ f.blocks)
    (hmem : i ∈ block.instructions) : ∃ index, (block.id, index, i) ∈ sites f := by
  obtain ⟨index, hindex⟩ := List.getElem?_of_mem hmem
  refine ⟨index, List.mem_flatMap.mpr ⟨block, hblock, List.mem_map.mpr ⟨(i, index), ?_, rfl⟩⟩⟩
  exact List.mk_mem_zipIdx_iff_getElem?.mpr hindex

theorem mem_predecessors {f : Function} {block : BasicBlock} {id : BlockId}
    {written : Option ValueId} (hblock : block ∈ f.blocks) (hedge : (id, written) ∈ terminatorEdges block.terminator) :
    (block.id, written) ∈ predecessors f id :=
  List.mem_flatMap.mpr ⟨block, hblock, List.mem_filterMap.mpr ⟨(id, written), hedge, if_pos rfl⟩⟩

theorem mem_successors {f : Function} {block : BasicBlock} {id : BlockId}
    {written : Option ValueId} (hblock : block ∈ f.blocks) (hedge : (id, written) ∈ terminatorEdges block.terminator) :
    id ∈ successors f block.id :=
  List.mem_flatMap.mpr ⟨block, List.mem_filter.mpr ⟨hblock, by simp⟩,
    List.mem_map.mpr ⟨(id, written), hedge, rfl⟩⟩

theorem successors_of_predecessors {f : Function} {id from_ : BlockId} {written : Option ValueId}
    (h : (from_, written) ∈ predecessors f id) : id ∈ successors f from_ := by
  have ⟨block, hblock, hfound⟩ := List.mem_flatMap.mp h
  have ⟨⟨target, slot⟩, hedge, heq⟩ := List.mem_filterMap.mp hfound
  dsimp only at heq
  split at heq
  · rename_i htarget
    cases heq
    exact htarget ▸ mem_successors hblock hedge
  · exact absurd heq (by simp)

abbrev OutStates := AList (fun _ : BlockId => ObservationState)

/-- What a slot carried says nothing once the edge writes it. -/
def ObservationState.along (state : ObservationState) (written : Option ValueId) :
    ObservationState :=
  match written with
  | some slot => { state with carriers := setCarriers state.carriers slot ∅ }
  | none => state

/-- Two predecessors' states joined: their carriers together, and their stack when
it is the same. -/
def ObservationState.join (previous incoming : ObservationState) : ObservationState where
  stack := if previous.stack = incoming.stack then previous.stack else .conflict
  carriers := previous.carriers ∪ incoming.carriers

/-- What one incoming edge adds: nothing until its block is reachable and has an
out-state. -/
def joinEdge (reachable : List BlockId) (out : OutStates) (joined : Option ObservationState)
    (edge : BlockId × Option ValueId) : Option ObservationState :=
  if edge.1 ∈ reachable then
    match out.lookup edge.1 with
    | none => joined
    | some state =>
      let incoming := state.along edge.2
      some (match joined with
        | none => incoming
        | some previous => previous.join incoming)
  else joined

/-- The in-state of a block, joined over its predecessors. -/
def joinIn (function : Function) (reachable : List BlockId) (id : BlockId) (out : OutStates) :
    Option ObservationState :=
  if id = entry then some ⟨.active [], ∅⟩
  else (predecessors function id).foldl (joinEdge reachable out) none

/-- The out-state of a block, when it is reachable and has an in-state. -/
def recompute (function : Function) (reachable : List BlockId) (id : BlockId) (out : OutStates) :
    Option ObservationState :=
  if id ∈ reachable then do
    let block ← blockById function id
    let inState ← joinIn function reachable id out
    some (observationTransfer ctx block inState).1
  else none

def observationContext (m : Module) (function : Function) : ObservationContext where
  origin value := (((loadOrigins function).reverse.find? (·.1 = value)).map (·.2)).getD value
  isAffine value := (valueTypes function value).any (isAffineIn (aggregateContext m))
  take := collected (m.functions.map fun f => (f.id, f.params.map (·.take)))
  begins := (collectBegins (beginSites function) ∅).1.lookup

/-- A repeated begin, and an end of what the function never begins. -/
def shapeProblems (function : Function) : List Located :=
  (collectBegins (beginSites function) ∅).2 ++
    (endSites function).filterMap fun (block, index, observation) =>
      if ((collectBegins (beginSites function) ∅).1.lookup observation).isNone then
        some ⟨block, index, .unknownObservationId⟩
      else none

/-- The reachable blocks, by their id. -/
def sweepOrder (function : Function) (reachable : List BlockId) : List BlockId :=
  ((function.blocks.map (·.id)).mergeSort fun a b => a.index ≤ b.index).filter (· ∈ reachable)

/-- What the settled in-states are checked for. One disagreement is reported once,
at the first block that has it. -/
def flowProblems (ctx : ObservationContext) (function : Function) (reachable : List BlockId)
    (out : OutStates) : List Located :=
  let order := sweepOrder function reachable
  let firstConflict := order.find? fun id =>
    ((joinIn function reachable id out).map (·.stack)) = some .conflict
  order.flatMap fun id =>
    match blockById function id, joinIn function reachable id out with
    | some block, some inState =>
      (if firstConflict = some id then [⟨id, 0, .observationStateConflict⟩] else []) ++
        (observationTransfer ctx block inState).2
    | _, _ => []

def exitProblems (function : Function) (reachable : List BlockId) (out : OutStates) :
    List Located :=
  (sweepOrder function reachable).flatMap fun id =>
    match blockById function id, (out.lookup id).map ObservationState.stack with
    | some block, some (.active stack) =>
      match block.terminator with
      | .ret _ | .raise _ =>
        stack.map fun _ => ⟨id, block.instructions.length, .observationActiveAtExit⟩
      | _ => []
    | _, _ => []

/-- Everything found wrong with the observations of a function, when the fuel lasts
for its fixed points. -/
def verifyObservations (fuel : ℕ) (m : Module) (function : Function) : Option (List Located) :=
  if (function.blocks.any (·.id = entry)) = false then some []
  else do
    let ctx := observationContext m function
    let reachable ← Worklist.reach (successors function) fuel [entry] [entry]
    let out ← Worklist.settle (· ∈ reachable) (successors function)
      (recompute ctx function reachable) fuel ∅ [entry]
    some ((shapeProblems function ++ flowProblems ctx function reachable out ++
      exitProblems function reachable out).mergeSort fun a b =>
        a.block.index < b.block.index || (a.block.index = b.block.index && a.index ≤ b.index))

/-- One diagnostic for each edge that names the entry block. -/
def checkEntryEdges (function : Function) : List BlockId :=
  function.blocks.flatMap fun block =>
    ((terminatorEdges block.terminator).filter (·.1 = entry)).map fun _ => block.id

end Napitia.Verify

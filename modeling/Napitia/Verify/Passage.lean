import Napitia.Verify.Observations

/-!
# What observations mean along a path

A path through a function runs the instructions of a block one by one and leaves it
by an edge of its terminator. Along the way observations begin and end, and values
come to carry them. A function is safe when no path begins an observation twice, ends
one that is not the innermost, leaves with one active, takes or overwrites a place one
of them holds, or uses a value after an observation it carries has ended.

Places are compared by where they are read from: a loaded value stands for its slot.
-/
namespace Napitia.Verify
open Nir

/-- The value whose observations a kind hands on to its result. -/
def handedOn : ValueKind → Option ValueId
  | .placeRead place _ => some place.root
  | .recordField base _ _ | .variantPayload base _ _ _ => some base
  | .move source | .deferCapture source => some source
  | _ => none

/-- A path's observations, the innermost first with the place each holds, and what
every value carries. -/
structure Passage where
  active : List (ObservationId × Place ValueId)
  carried : ValueId → Finset ObservationId
  /-- The part of it that was read out of a loaded value whose slot no longer
  carries it. -/
  strayed : ValueId → Finset ObservationId

namespace Passage

def start : Passage := ⟨[], fun _ => ∅, fun _ => ∅⟩

def ids (s : Passage) : List ObservationId := s.active.map (·.1)

variable (ctx : ObservationContext) (s : Passage)

def carriedBy : ValueKind → Finset ObservationId
  | .observePlace observation _ => {observation}
  | .load slot => s.carried slot
  | kind => ((handedOn kind).map s.carried).getD ∅

/-- What was read out of a value that its origin does not account for. -/
def strayedFrom (value : ValueId) : Finset ObservationId :=
  s.strayed value ∪ s.strayed (ctx.origin value) ∪
    (s.carried value \ s.carried (ctx.origin value))

def strayedBy : ValueKind → Finset ObservationId
  | .observePlace _ _ => ∅
  | .load slot => s.strayed slot
  | kind => ((handedOn kind).map (s.strayedFrom ctx)).getD ∅

def activate : Instruction → List (ObservationId × Place ValueId)
  | .value _ _ (.observePlace observation place) =>
    (observation, ctx.canonical place) :: s.active
  | .endObserve observation => s.active.eraseP (·.1 = observation)
  | _ => s.active

/-- One instruction of a path. -/
def after (instruction : Instruction) : Passage where
  active := s.activate ctx instruction
  carried :=
    match instruction with
    | .value result _ kind => Function.update s.carried result (s.carriedBy kind)
    | .store slot value mode =>
      Function.update s.carried slot (if mode = .observe then s.carried value else ∅)
    | _ => s.carried
  strayed :=
    match instruction with
    | .value result _ kind => Function.update s.strayed result (s.strayedBy ctx kind)
    | .store slot value mode =>
      Function.update s.strayed slot (if mode = .observe then s.strayed value else ∅)
    | _ => s.strayed

/-- An edge of a path, with the slot it writes. -/
def along (written : Option ValueId) : Passage where
  active := s.active
  carried := written.elim s.carried fun slot => Function.update s.carried slot ∅
  strayed := written.elim s.strayed fun slot => Function.update s.strayed slot ∅

end Passage

/-- A path has arrived at a block with these instructions of it still to run. -/
inductive Walked (ctx : ObservationContext) (f : Function) :
    BasicBlock → List Instruction → Passage → Prop
  | entry {block : BasicBlock} : block ∈ f.blocks → block.id = entry →
      Walked ctx f block block.instructions .start
  | instruction {block : BasicBlock} {i : Instruction} {rest : List Instruction} {s : Passage} :
      Walked ctx f block (i :: rest) s → Walked ctx f block rest (s.after ctx i)
  | edge {block next : BasicBlock} {s : Passage} {written : Option ValueId} :
      Walked ctx f block [] s → (next.id, written) ∈ terminatorEdges block.terminator →
      next ∈ f.blocks → Walked ctx f next next.instructions (s.along written)

/-! ### What an instruction takes and overwrites -/

/-- The arguments at the positions a function takes. -/
def takenArgs (take : Option (List Bool)) (args : List ValueId) : List ValueId :=
  args.zipIdx.filterMap fun (arg, index) =>
    if (take.bind (·[index]?)) = some true then some arg else none

/-- The functions a protocol call may enter: the one its evidence selects, or for
forwarded evidence that of any extension of the protocol. -/
def implementing (m : Module) (protocol : ItemId) (method : ℕ) : Evidence → List ItemId
  | .extension extend _ =>
    (((aggregateContext m).extensions extend).bind (·.methods[method]?)).toList
  | .forwarded _ => m.extensions.filterMap fun (_, layout) =>
    if layout.protocol = protocol then layout.methods[method]? else none

section
variable (m : Module) (ctx : ObservationContext)

/-- The arguments of a protocol call that a function it may enter takes. -/
def protocolTaken (protocol : ItemId) (method : ℕ) (evidence : Evidence)
    (args : List ValueId) : List ValueId :=
  (implementing m protocol method evidence).flatMap fun function =>
    takenArgs (ctx.take function) args

/-- The values an instruction moves, drops or consumes. -/
def moved : Instruction → List ValueId
  | .value _ _ kind =>
    match kind with
    | .move source | .deferCapture source => [source]
    | .recordCreate _ _ fields => fields
    | .variantCreate _ _ _ payload => payload
    | .call callee _ args _ => takenArgs (ctx.take callee) args
    | .protocolCall protocol _ method evidence args =>
      protocolTaken m ctx protocol method evidence args
    | _ => []
  | .store _ value mode => if mode = .transfer then [value] else []
  | .drop value | .decomposeVariant value _ _ _ | .storePlace _ value => [value]
  | .endObserve _ => []

/-- The places it reads out of or stores over. -/
def overwritten : Instruction → List (Place ValueId)
  | .value _ _ (.placeRead place .transfer) | .storePlace place _ => [ctx.canonical place]
  | .store slot _ _ => [⟨slot, []⟩]
  | _ => []

def consumed (i : Instruction) : List (Place ValueId) :=
  (moved m ctx i).map ctx.rootOf ++ overwritten ctx i

/-- The values a terminator takes apart or transfers. -/
def terminatorMoved : Terminator → List ValueId
  | .switch scrutinee _ _ => [scrutinee]
  | .invoke callee _ args _ _ _ _ => takenArgs (ctx.take callee) args
  | _ => []

/-- The slots its edges write. -/
def terminatorWritten (terminator : Terminator) : List (Place ValueId) :=
  (terminatorEdges terminator).filterMap fun (_, written) => written.map (⟨·, []⟩)

def terminatorConsumed (terminator : Terminator) : List (Place ValueId) :=
  (terminatorMoved ctx terminator).map ctx.rootOf ++ terminatorWritten terminator

/-! ### Safety -/

/-- None of the places is held by an active observation. -/
def Passage.Untouched (s : Passage) (places : List (Place ValueId)) : Prop :=
  ∀ place ∈ places, ∀ held ∈ s.active, placesOverlap held.2 place = false

/-- Every observation the values carry is active. -/
def Passage.InForce (s : Passage) (values : List ValueId) : Prop :=
  ∀ value ∈ values, ∀ id ∈ s.carried value, id ∈ s.ids

/-- A begin begins what is not active; an end ends the innermost. -/
def Passage.Nests (s : Passage) : Instruction → Prop
  | .value _ _ (.observePlace observation _) => observation ∉ s.ids
  | .endObserve observation => s.ids.head? = some observation
  | _ => True

/-- The terminators that leave the function. -/
def Leaves : Terminator → Prop
  | .ret _ | .raise _ => True
  | _ => False

def Passage.SafeAt (s : Passage) (block : BasicBlock) : List Instruction → Prop
  | i :: _ => s.Nests i ∧ s.Untouched (consumed m ctx i) ∧ s.InForce (instructionOperands i)
  | [] => (Leaves block.terminator → s.active = []) ∧
      s.Untouched (terminatorConsumed ctx block.terminator) ∧
      s.InForce (terminatorOperands block.terminator)

/-- No path through the function does anything its observations forbid. -/
def ObservationsSafe (f : Function) : Prop :=
  ∀ block rest s, Walked ctx f block rest s → s.SafeAt m ctx block rest

/-! ### What no check looks at -/

/-- The places an instruction reaches without a check: those of the arguments a
protocol call takes, and those of values the verifier takes to own nothing. -/
def unchecked (i : Instruction) : List (Place ValueId) :=
  match i with
  | .value _ _ (.protocolCall _ _ _ _ _) => (moved m ctx i).map ctx.rootOf
  | .store slot _ _ =>
    ((moved m ctx i).filter (!ctx.isAffine ·)).map ctx.rootOf ++
      if ctx.isAffine slot then [] else [⟨slot, []⟩]
  | i => ((moved m ctx i).filter (!ctx.isAffine ·)).map ctx.rootOf

/-- And a terminator: the slots an invoke writes, and likewise such values. -/
def terminatorUnchecked (terminator : Terminator) : List (Place ValueId) :=
  ((terminatorMoved ctx terminator).filter (!ctx.isAffine ·)).map ctx.rootOf ++
    terminatorWritten terminator

/-- What the values carry and was lost track of is active. -/
def Passage.NoneStrayed (s : Passage) (values : List ValueId) : Prop :=
  ∀ value ∈ values, ∀ id ∈ s.carried value, id ∈ s.strayed value → id ∈ s.ids

def Passage.ClearAt (s : Passage) (block : BasicBlock) : List Instruction → Prop
  | i :: _ => s.Untouched (unchecked m ctx i) ∧ s.NoneStrayed (instructionOperands i)
  | [] => s.Untouched (terminatorUnchecked ctx block.terminator) ∧
      s.NoneStrayed (terminatorOperands block.terminator)

/-- On no path does a place that is reached without a check lie in an observation,
or a value that was lost track of outlive one. -/
def NothingUnchecked (f : Function) : Prop :=
  ∀ block rest s, Walked ctx f block rest s → s.ClearAt m ctx block rest

end

end Napitia.Verify

import Napitia.Verify.Acceptance

/-!
# The verifier's checks of typed outcomes

Which slots stores and invokes write, where an invoke resumes for each variant its
callee raises, and which variants a function raises itself. A function without
blocks, or without an entry block, is reported before any of them.
-/
namespace Napitia.Verify
open Nir

inductive OutcomeCode where
  | unknownBranchTarget | unknownValue | unknownSlot | storeTypeMismatch | unknownVariantOrCase
  | invokeSuccessSlotUnallocated | invokeSuccessTypeMismatch | invokeErrTargetCoverageMismatch
  | invokeFailureSlotUnallocated | invokeFailureTypeMismatch | undeclaredRaise
  deriving DecidableEq, Repr

def allocated : Instruction → Option ValueId
  | .value result _ .alloc => some result
  | _ => none

/-- The slots a function allocates. -/
def allocSlots (function : Function) : List ValueId :=
  (function.blocks.flatMap (·.instructions)).filterMap allocated

section
variable (m : Module) (function : Function)

def requireDefined (id : ValueId) : List OutcomeCode :=
  if (valueTypes function id).isNone then [.unknownValue] else []

def requireBlock (id : BlockId) : List OutcomeCode :=
  if id ∈ function.blocks.map (·.id) then [] else [.unknownBranchTarget]

def verifyStore (slot value : ValueId) : List OutcomeCode :=
  requireDefined function slot ++ requireDefined function value ++
    if slot ∉ allocSlots function then [.unknownSlot]
    else match valueTypes function slot, valueTypes function value with
      | some slotTy, some valueTy => if slotTy ≠ valueTy then [.storeTypeMismatch] else []
      | _, _ => []

/-- Where an invoke resumes for one raised variant. -/
def verifyErrTarget (target : InvokeErrTarget) : List OutcomeCode :=
  (match (aggregateContext m).variants target.variant with
    | none => [.unknownVariantOrCase]
    | some _ =>
      if target.slot ∉ allocSlots function then [.invokeFailureSlotUnallocated]
      else match valueTypes function target.slot with
        | some ty => if ty ≠ .named target.variant then [.invokeFailureTypeMismatch] else []
        | none => []) ++
    requireBlock function target.target

/-- What of an invoke is checked against the signature of its callee. -/
def verifyResumption (sig : KnownFunction) (typeArgs : List Ty) (okSlot : ValueId)
    (errTargets : List InvokeErrTarget) : List OutcomeCode :=
  let returnTy := atCall (checkedSubstitution sig.typeParams typeArgs) sig.returnType
  (if okSlot ∈ allocSlots function then
      match valueTypes function okSlot with
      | some ty => if ty ≠ returnTy then [.invokeSuccessTypeMismatch] else []
      | none => []
    else []) ++
    if ¬(errTargets.map (·.variant)).Nodup ∨
        (errTargets.map (·.variant)).toFinset ≠ sig.raises.toFinset then
      [.invokeErrTargetCoverageMismatch]
    else []

def verifyInvokeOutcome (callee : ItemId) (typeArgs : List Ty) (okSlot : ValueId)
    (okTarget : BlockId) (errTargets : List InvokeErrTarget) : List OutcomeCode :=
  (if okSlot ∉ allocSlots function then [.invokeSuccessSlotUnallocated] else []) ++
    requireBlock function okTarget ++ errTargets.flatMap (verifyErrTarget m function) ++
    match knownFunctions m callee with
    | none => []
    | some sig => verifyResumption function sig typeArgs okSlot errTargets

/-- A function raises only values of variants it declares. -/
def verifyRaise (value : ValueId) : List OutcomeCode :=
  requireDefined function value ++
    match valueTypes function value with
    | some (.named item) => if item ∈ function.raises then [] else [.undeclaredRaise]
    | _ => [.undeclaredRaise]

def verifyInstructionOutcome : Instruction → List OutcomeCode
  | .store slot value _ => verifyStore function slot value
  | _ => []

def verifyTerminatorOutcome : Terminator → List OutcomeCode
  | .invoke callee typeArgs _ _ okSlot okTarget errTargets =>
    verifyInvokeOutcome m function callee typeArgs okSlot okTarget errTargets
  | .raise value => verifyRaise function value
  | _ => []

def verifyOutcomes : List OutcomeCode :=
  function.blocks.flatMap fun block =>
    block.instructions.flatMap (verifyInstructionOutcome function) ++
      verifyTerminatorOutcome m function block.terminator

end

section
variable {m : Module} {f : Function} {block : BasicBlock} {slot value : ValueId}

theorem verifyOutcomes_eq_nil (h : verifyOutcomes m f = []) (hblock : block ∈ f.blocks) :
    (∀ i ∈ block.instructions, verifyInstructionOutcome f i = []) ∧
      verifyTerminatorOutcome m f block.terminator = [] := by
  have hnil := List.append_eq_nil_iff.mp (List.flatMap_eq_nil_iff.mp h block hblock)
  exact ⟨List.flatMap_eq_nil_iff.mp hnil.1, hnil.2⟩

theorem verifyStore_slot (h : verifyStore f slot value = []) : slot ∈ allocSlots f := by
  by_contra hslot
  have hnil := (List.append_eq_nil_iff.mp h).2
  rw [if_pos hslot] at hnil
  exact List.cons_ne_nil _ _ hnil

theorem verifyRaise_declared (h : verifyRaise f value = []) :
    ∃ item ∈ f.raises, valueTypes f value = some (.named item) := by
  have hnil := (List.append_eq_nil_iff.mp h).2
  split at hnil
  · rename_i item hty
    refine ⟨item, ?_, hty⟩
    by_contra hitem
    rw [if_neg hitem] at hnil
    exact List.cons_ne_nil _ _ hnil
  · exact absurd hnil (List.cons_ne_nil _ _)

theorem verifyInvokeOutcome_slots {callee : ItemId} {typeArgs : List Ty} {okSlot : ValueId}
    {okTarget : BlockId} {errTargets : List InvokeErrTarget}
    (h : verifyInvokeOutcome m f callee typeArgs okSlot okTarget errTargets = []) :
    okSlot ∈ allocSlots f ∧ ∀ target ∈ errTargets, target.slot ∈ allocSlots f := by
  unfold verifyInvokeOutcome at h
  simp only [List.append_eq_nil_iff, List.flatMap_eq_nil_iff] at h
  refine ⟨?_, fun target htarget => ?_⟩
  · by_contra hslot
    rw [if_pos hslot] at h
    exact List.cons_ne_nil _ _ h.1.1.1
  · by_contra hslot
    have hnil := (List.append_eq_nil_iff.mp (h.1.2 target htarget)).1
    split at hnil
    · exact List.cons_ne_nil _ _ hnil
    · rw [if_pos hslot] at hnil
      exact List.cons_ne_nil _ _ hnil

end

end Napitia.Verify

import Napitia.Native.Plans

/-!
# Every way through a plan

The calls of a plan do not come back to a function they left: one that did would stand in a
component of the call graph that the check reports. On every way from `bb0` to an instruction,
what it uses has been defined and the slot it loads has been stored.
-/
namespace Napitia.Native
open Nir

/-- The values an instruction uses as values. What a load reads and a store writes is a slot,
which is no value. -/
def valuesUsed : Instruction → List ValueId
  | .value _ _ (.load _) => []
  | .store _ value _ => [value]
  | instruction => Verify.usedBy instruction

/-- The slots a block stores into. -/
def stores (function : Function) (id : BlockId) : List ValueId :=
  (((function.findBlock id).map (·.instructions)).getD []).filterMap storedSlot

/-- A value is defined where a way comes to a point: by the call, in a block that the way has
left, or further up in the block of the point. -/
def DefinedOn (function : Function) (left : List BlockId) (before : List Instruction)
    (value : ValueId) : Prop :=
  value ∈ function.params.map (·.value) ∨ (∃ b ∈ left, value ∈ defines function b) ∨
    value ∈ before.flatMap resultOf

/-- A slot is stored on a way to a point. -/
def StoredOn (function : Function) (left : List BlockId) (before : List Instruction)
    (slot : ValueId) : Prop :=
  (∃ b ∈ left, slot ∈ stores function b) ∨ slot ∈ before.filterMap storedSlot

/-- Behind a way to a block, what its instructions and its end use has been defined, and the
slot an instruction loads has been stored. -/
def UsesMet (function : Function) (left : List BlockId) (block : BasicBlock) : Prop :=
  (∀ before instruction after, block.instructions = before ++ instruction :: after →
    (∀ value ∈ valuesUsed instruction, DefinedOn function left before value) ∧
    ∀ result ty slot, instruction = .value result ty (.load slot) →
      StoredOn function left before slot) ∧
  ∀ value ∈ Verify.usedByTerminator block.terminator,
    DefinedOn function left block.instructions value

/-! ### Uses that were checked -/

section
variable {v : Validator} {function : Function} {block : BlockId} {types : List (ValueId × Ty)}
  {slots live : Finset ValueId} {value a b : ValueId} {scalar resultScalar : Scalar}
  {result : ValueId} {blocks : Blocks}

theorem operand_live (h : v.operand function block types slots live value = .ok scalar) :
    value ∈ live := by
  simp only [Validator.operand, Except.guard_eq_ok] at h
  exact not_not.mp h.2.1

theorem checkCompare_live
    (h : v.checkCompare function block types slots live result resultScalar a b = .ok scalar) :
    a ∈ live ∧ b ∈ live := by
  unfold Validator.checkCompare at h
  obtain ⟨left, hleft, h⟩ := Except.bind_eq_ok.mp h
  obtain ⟨right, hright, -⟩ := Except.bind_eq_ok.mp h
  exact ⟨operand_live hleft, operand_live hright⟩

theorem binaryInt_live
    (h : v.binaryInt function block types slots live result resultScalar a b = .ok ()) :
    a ∈ live ∧ b ∈ live := by
  unfold Validator.binaryInt at h
  obtain ⟨left, hleft, h⟩ := Except.bind_eq_ok.mp h
  obtain ⟨right, hright, -⟩ := Except.bind_eq_ok.mp h
  exact ⟨operand_live hleft, operand_live hright⟩

theorem checkArguments_live {name : String} {args : List ValueId} {params : List Param}
    {index : ℕ} (hlength : args.length = params.length)
    (h : v.checkArguments function block types slots live name index (args.zip params) = .ok ()) :
    ∀ arg ∈ args, arg ∈ live := by
  induction args generalizing params index with
  | nil => exact fun _ harg => absurd harg List.not_mem_nil
  | cons arg args ih =>
    cases params with
    | nil => cases hlength
    | cons param params =>
      rw [List.zip_cons_cons, Validator.checkArguments] at h
      obtain ⟨actual, hactual, h⟩ := Except.bind_eq_ok.mp h
      rw [Except.guard_eq_ok] at h
      exact List.forall_mem_cons.mpr ⟨operand_live hactual, ih (by simpa using hlength) h.2⟩

theorem checkCall_live {callee : ItemId} {typeArgs : List Ty} {args : List ValueId}
    {evidence : List Evidence} (h : v.checkCall function block types slots live result
      resultScalar callee typeArgs args evidence = .ok ()) : ∀ arg ∈ args, arg ∈ live := by
  unfold Validator.checkCall at h
  simp only [Except.guard_eq_ok] at h
  obtain ⟨-, -, h⟩ := h
  split at h
  · cases h
  · simp only [Except.guard_eq_ok] at h
    obtain ⟨_, harguments, -⟩ := Except.bind_eq_ok.mp h.2
    exact checkArguments_live (not_not.mp h.1) harguments

/-- Every value that an instruction uses is defined by then. -/
theorem checkInstruction_live {instruction : Instruction}
    (h : v.checkInstruction function block types slots live instruction = .ok ()) :
    ∀ value ∈ valuesUsed instruction, value ∈ live := by
  cases instruction with
  | store slot value mode =>
    simp only [Validator.checkInstruction, Validator.checkStore, Except.guard_eq_ok] at h
    obtain ⟨stored, hstored, -⟩ := Except.bind_eq_ok.mp h.2.2
    exact List.forall_mem_singleton.mpr (operand_live hstored)
  | value result ty kind =>
    simp only [Validator.checkInstruction, Validator.checkValue] at h
    split at h
    · cases h
    cases kind with
    | add a b | sub a b | mul a b | and a b | or a b | xor a b =>
      simpa [valuesUsed, Verify.usedBy, Verify.operandsOf] using binaryInt_live h
    | lt a b | le a b | gt a b | ge a b =>
      obtain ⟨scalar, hcompare, -⟩ := Except.bind_eq_ok.mp h
      simpa [valuesUsed, Verify.usedBy, Verify.operandsOf] using checkCompare_live hcompare
    | eq a b | ne a b =>
      obtain ⟨scalar, hcompare, -⟩ := Except.bind_eq_ok.mp h
      simpa [valuesUsed, Verify.usedBy, Verify.operandsOf] using checkCompare_live hcompare
    | neg a | not a =>
      obtain ⟨scalar, hoperand, -⟩ := Except.bind_eq_ok.mp h
      simpa [valuesUsed, Verify.usedBy, Verify.operandsOf] using operand_live hoperand
    | call callee typeArgs args evidence =>
      simpa [valuesUsed, Verify.usedBy, Verify.operandsOf] using checkCall_live h
    | alloc | const | load => simp [valuesUsed, Verify.usedBy, Verify.operandsOf]
    | _ => cases h
  | _ => cases h

theorem checkTerminator_live {terminator : Terminator}
    (h : v.checkTerminator function block types slots live blocks terminator = .ok ()) :
    ∀ value ∈ Verify.usedByTerminator terminator, value ∈ live := by
  cases terminator with
  | ret value =>
    cases value with
    | none => simp [Verify.usedByTerminator]
    | some value =>
      obtain ⟨scalar, hoperand, -⟩ := Except.bind_eq_ok.mp h
      simpa [Verify.usedByTerminator] using operand_live hoperand
  | branch target => simp [Verify.usedByTerminator]
  | condBranch condition thenBlock elseBlock =>
    obtain ⟨scalar, hoperand, -⟩ := Except.bind_eq_ok.mp h
    simpa [Verify.usedByTerminator] using operand_live hoperand
  | _ => cases h

theorem checkSteps_append {terminator : Terminator} {before after : List Instruction}
    (h : v.checkSteps function blocks types slots block terminator (before ++ after) live =
      .ok ()) : v.checkSteps function blocks types slots block terminator after
        (before.foldl liveAfter live) = .ok () := by
  induction before generalizing live with
  | nil => exact h
  | cons inst before ih =>
    obtain ⟨_, -, hrest⟩ := Except.bind_eq_ok.mp h
    cases inst <;> exact ih hrest

end

/-! ### Ways through a function -/

section
variable {v : Validator} {function : Function} {blocks : Blocks} {isEntry : Bool} {id : BlockId}
  {block : BasicBlock} {left : List BlockId}

variable (h : Admitted v isEntry function blocks)
include h

/-- What the check takes to be defined at the start of a block is so on every way there. -/
theorem Admitted.available_on (hwalk : Dominance.Walk (declaredTargets blocks) ⟨0⟩ (id :: left))
    {value : ValueId} (hvalue : value ∈ availableAt function blocks id ∪ parametersOf function) :
    value ∈ function.params.map (·.value) ∨ ∃ b ∈ left, value ∈ defines function b := by
  induction left generalizing id with
  | nil =>
    cases hwalk
    rw [h.at_entry.1, Finset.union_self] at hvalue
    exact .inl (List.mem_toFinset.mp hvalue)
  | cons p left ih =>
    cases hwalk with
    | step hwalk htarget =>
      have hp := reachable_of_walk h.entered hwalk p List.mem_cons_self
      obtain ⟨block, hblock⟩ := Option.isSome_iff_exists.mp (get_of_reachable h.entered hp)
      have hafter := h.availableAt_target hp hblock htarget hvalue
      rcases mem_foldl_liveAfter.mp hafter with hbefore | hhere
      · refine (ih hwalk hbefore).imp_right ?_
        rintro ⟨b, hb, hdefines⟩
        exact ⟨b, List.mem_cons_of_mem _ hb, hdefines⟩
      · exact .inr ⟨p, List.mem_cons_self, by rwa [h.defines_eq hblock]⟩

/-- What it takes to be stored there is stored on every way. -/
theorem Admitted.stored_on (hwalk : Dominance.Walk (declaredTargets blocks) ⟨0⟩ (id :: left))
    {slot : ValueId} (hslot : slot ∈ storedAt blocks id) :
    ∃ b ∈ left, slot ∈ stores function b := by
  induction left generalizing id with
  | nil =>
    cases hwalk
    rw [h.at_entry.2] at hslot
    cases hslot
  | cons p left ih =>
    cases hwalk with
    | step hwalk htarget =>
      have hp := reachable_of_walk h.entered hwalk p List.mem_cons_self
      rcases Finset.mem_union.mp (h.storedAt_target hp htarget hslot) with hbefore | hhere
      · obtain ⟨b, hb, hstores⟩ := ih hwalk hbefore
        exact ⟨b, List.mem_cons_of_mem _ hb, hstores⟩
      · refine ⟨p, List.mem_cons_self, ?_⟩
        simpa [given, stores, ← get_eq_findBlock h.keyed] using hhere

/-- On every way to a point of a block, the values used there are defined and the slot loaded
there is stored. -/
theorem Admitted.uses_on (hwalk : Dominance.Walk (declaredTargets blocks) ⟨0⟩ (id :: left))
    (hblock : blocks.get id = some block) :
    UsesMet function left block := by
  have hid := reachable_of_walk h.entered hwalk id List.mem_cons_self
  have hsteps := h.steps id hid block hblock
  have hdefined : ∀ before value, value ∈ before.foldl liveAfter
      (availableAt function blocks id ∪ parametersOf function) →
      DefinedOn function left before value := by
    intro before value hvalue
    rcases mem_foldl_liveAfter.mp hvalue with hvalue | hvalue
    · exact (h.available_on hwalk hvalue).imp_right .inl
    · exact .inr (.inr hvalue)
  constructor
  · intro before instruction after hinsts
    constructor
    · intro value hvalue
      rw [hinsts] at hsteps
      obtain ⟨_, hcheck, -⟩ := Except.bind_eq_ok.mp (checkSteps_append hsteps)
      exact hdefined before value (checkInstruction_live hcheck value hvalue)
    · rintro result ty slot rfl
      have hmem : .value result ty (.load slot) ∈ block.instructions := by simp [hinsts]
      have hslot := h.load_slot hid hblock hmem
      have hloads := h.loads (Finset.ne_empty_of_mem hslot) id hid block hblock
      rw [hinsts] at hloads
      have hstored := (checkLoads_cons (checkLoads_append hloads)).2 result ty slot rfl
      rcases mem_foldl_storedAfter.mp hstored with hstored | hstored
      · exact .inl (h.stored_on hwalk hstored)
      · exact .inr hstored
  · intro value hvalue
    have happend : v.checkSteps function blocks
        (definitions function blocks (reachableBlocks blocks))
        (allocSlots blocks (reachableBlocks blocks)) id block.terminator
        (block.instructions ++ []) (availableAt function blocks id ∪ parametersOf function) =
        .ok () := by
      rw [List.append_nil]
      exact hsteps
    exact hdefined _ value (checkTerminator_live (checkSteps_append happend) value hvalue)

end

/-! ### The call graph -/

section
variable {m : Module} {v : Validator} {plan : NativePlan} {functions : List ItemId}
  {caller callee : ItemId}

theorem mem_callEdges :
    callee ∈ v.callEdges functions caller ↔ callee ∈ v.calleesOf caller ∧ callee ∈ functions := by
  simp [Validator.callEdges, mem_sortItems]

/-- Where no cycle is reported, no component calls itself. -/
theorem single_of_reportCycles (h : v.reportCycles functions = []) {component : List ItemId}
    (hmem : component ∈ Components.components (v.callEdges functions) functions) {a b : ItemId}
    (ha : a ∈ component) (hb : b ∈ component) : a = b ∧ a ∉ v.callEdges functions a := by
  have hsorted : sortItems component ∈
      Validator.stronglyConnectedComponents functions (v.callEdges functions) :=
    (List.mem_insertionSort _).mpr (List.mem_map_of_mem hmem)
  have hnone := filterMap_eq_nil h hsorted
  have ha' : a ∈ sortItems component := mem_sortItems.mpr ha
  have hb' : b ∈ sortItems component := mem_sortItems.mpr hb
  cases hitems : sortItems component with
  | nil =>
    rw [hitems] at ha'
    cases ha'
  | cons root others =>
    rw [hitems] at hnone ha' hb'
    simp only [Validator.cycleProblem, ite_eq_right_iff, reduceCtorEq, imp_false, not_or,
      ne_eq, not_not] at hnone
    obtain ⟨rfl, hself⟩ := hnone
    cases List.mem_singleton.mp ha'
    cases List.mem_singleton.mp hb'
    exact ⟨rfl, hself⟩

theorem Planned.edge_of_calls (h : Planned m v plan) (hcaller : caller ∈ plan.functions)
    (hcalls : Calls m caller callee) :
    callee ∈ plan.functions ∧ callee ∈ v.callEdges plan.functions caller := by
  have hcallee := (h.reached_iff callee).mpr (((h.reached_iff caller).mp hcaller).tail hcalls)
  have hedge := (List.mem_filter.mp ((h.calls_iff hcaller).mpr hcalls)).1
  exact ⟨hcallee, mem_callEdges.mpr ⟨hedge, hcallee⟩⟩

theorem Planned.path_of_calls (h : Planned m v plan) (hcaller : caller ∈ plan.functions)
    (hcalls : Relation.ReflTransGen (Calls m) caller callee) : callee ∈ plan.functions ∧
      Relation.ReflTransGen (fun a b => b ∈ v.callEdges plan.functions a) caller callee := by
  induction hcalls with
  | refl => exact ⟨hcaller, .refl⟩
  | tail _ hcall ih =>
    obtain ⟨hcallee, hedge⟩ := h.edge_of_calls ih.1 hcall
    exact ⟨hcallee, ih.2.tail hedge⟩

/-- A call that came back would be an edge inside a component. -/
theorem Planned.calls_acyclic (h : Planned m v plan) {id : ItemId} (hid : id ∈ plan.functions) :
    ¬ Relation.TransGen (Calls m) id id := by
  intro hcycle
  obtain ⟨hclosed, hall⟩ := Components.components_spec
    fun n (_ : n ∈ plan.functions) k (hk : k ∈ v.callEdges plan.functions n) =>
      (mem_callEdges.mp hk).2
  obtain ⟨next, hcall, hback⟩ := Relation.TransGen.head'_iff.mp hcycle
  obtain ⟨hnext, hedge⟩ := h.edge_of_calls hid hcall
  obtain ⟨component, hmem, hida, hnexta⟩ := hclosed.together (.single hedge)
    (h.path_of_calls hnext hback).2 (hall id hid)
  obtain ⟨rfl, hself⟩ := single_of_reportCycles h.acyclic hmem hida hnexta
  exact hself hedge

/-! ### The plan -/

variable {source : Hir.Declarations.SourceId} {resolve : Symbol → String}
  {registry : ItemRegistry} {displayTy : Ty → String} {name : String} {imports : List Lexer.Span}

end

end Napitia.Native

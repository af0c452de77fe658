import Napitia.Native.Progress

/-!
# What the check establishes about each place

The must-analyses of the capability check against the ways through a function, and the
verifier's dominance check with them: an instruction of a block in reach is checked with what
holds there.
-/
namespace Napitia.Native
open Nir
open Reference (Halt Env Next Safe)

/-- What the verifier has made sure of before. -/
structure Verified (function : Function) : Prop where
  consts : ∀ block ∈ function.blocks, ∀ result i,
    .value result .i64 (.const (.int i)) ∈ block.instructions → Numeric.i64.contains i
  dominated : ∃ order fuel, (∀ l, (order l).Perm l) ∧
    Verify.verifyDominance function order fuel = some []

def resultOf : Instruction → List ValueId
  | .value result _ _ => [result]
  | _ => []

def defines (function : Function) (id : BlockId) : List ValueId :=
  (((function.findBlock id).map (·.instructions)).getD []).flatMap resultOf

/-- The parameters and what is defined in reach are all different. -/
def DefinedOnce (function : Function) (reachable : List BlockId) : Prop :=
  (function.params.map (·.value) ++ reachable.flatMap (defines function)).Nodup

section
variable {v : Validator} {function : Function} {blocks : Blocks} {isEntry : Bool}
  {id target : BlockId} {block : BasicBlock}

theorem filterMap_definitionOf (insts : List Instruction) :
    (insts.filterMap definitionOf).map (·.1) = insts.flatMap resultOf := by
  induction insts with
  | nil => rfl
  | cons inst insts ih =>
    rw [List.filterMap_cons, List.flatMap_cons]
    cases inst <;> simp [definitionOf, resultOf, ih]

theorem map_definitions {blocks : Blocks} (hkeyed : v.blocksById function = .ok blocks)
    (reachable : List BlockId) : (definitions function blocks reachable).map (·.1) =
      function.params.map (·.value) ++ reachable.flatMap (defines function) := by
  unfold definitions reachableInstructions
  rw [List.map_append, List.map_map, filterMap_definitionOf, List.flatMap_assoc]
  have hdefines : defines function = fun id =>
      (((blocks.get id).map (·.instructions)).getD []).flatMap resultOf := by
    funext id
    rw [get_eq_findBlock hkeyed]
    rfl
  rw [hdefines]
  rfl

theorem Admitted.once {isEntry : Bool} {blocks : Blocks}
    (h : Admitted v isEntry function blocks) : DefinedOnce function (reachableBlocks blocks) := by
  unfold DefinedOnce
  rw [← map_definitions h.keyed]
  exact h.unique

theorem arrives_of_walk (hkeyed : v.blocksById function = .ok blocks) {visited : List BlockId}
    (h : Dominance.Walk (declaredTargets blocks) ⟨0⟩ visited) :
    Dominance.Walk (Verify.flowsTo function) Verify.entry visited := by
  have ⟨hnodup, hperm, _⟩ := blocksById_eq_ok hkeyed
  have hflows : ∀ id target, target ∈ declaredTargets blocks id →
      target ∈ Verify.flowsTo function id := by
    intro id target htarget
    obtain ⟨⟨block, hblock, hmem⟩, htarget⟩ := mem_declaredTargets.mp htarget
    have hfind : Verify.blockById function id = some block := by
      rw [← hblock, get_eq_findBlock hkeyed]
      exact (find?_key_perm hnodup (List.reverse_perm _).symm id).symm
    unfold Verify.flowsTo Verify.targetsOf
    rw [hfind, List.mem_filter]
    constructor
    · cases hterm : block.terminator <;> simp_all [Verify.terminatorEdges, terminatorTargets]
    · obtain ⟨found, hfound⟩ := Option.isSome_iff_exists.mp htarget
      rw [← Blocks.id_of_get hfound]
      exact decide_eq_true (List.mem_map_of_mem (hperm.mem_iff.mp (List.mem_of_find?_eq_some hfound)))
  induction h with
  | start => exact .start
  | step _ hmem ih => exact .step ih (hflows _ _ hmem)

theorem walk_of_reachable (hentry : (blocks.get ⟨0⟩).isSome) (hid : id ∈ reachableBlocks blocks) :
    ∃ left, Dominance.Walk (declaredTargets blocks) ⟨0⟩ (id :: left) := by
  have hpath := ((reachableBlocks_spec hentry).2 id).mp hid
  induction hpath with
  | refl => exact ⟨[], .start⟩
  | tail hpath hedge ih =>
    have ⟨left, hwalk⟩ := ih (((reachableBlocks_spec hentry).2 _).mpr hpath)
    exact ⟨_, .step hwalk hedge⟩

theorem reachable_of_walk (hentry : (blocks.get ⟨0⟩).isSome) {visited : List BlockId}
    (h : Dominance.Walk (declaredTargets blocks) ⟨0⟩ visited) :
    ∀ id ∈ visited, id ∈ reachableBlocks blocks := by
  induction h with
  | start =>
    intro id hid
    rw [List.mem_singleton.mp hid]
    exact entry_reachable hentry
  | step _ hmem ih =>
    intro id hid
    rcases List.mem_cons.mp hid with rfl | hid
    · exact target_reachable hentry (ih _ List.mem_cons_self) hmem
    · exact ih id hid

theorem mem_reachableInstructions (hblock : blocks.get id = some block)
    (hid : id ∈ reachableBlocks blocks) {inst : Instruction} (hinst : inst ∈ block.instructions) :
    inst ∈ reachableInstructions blocks (reachableBlocks blocks) :=
  List.mem_flatMap.mpr ⟨id, hid, by rw [hblock]; exact hinst⟩

theorem checkInstruction_of_steps {types : List (ValueId × Ty)} {slots : Finset ValueId}
    {term : Terminator} {insts : List Instruction} {live : Finset ValueId}
    (hsteps : v.checkSteps function blocks types slots id term insts live = .ok ())
    {inst : Instruction} (hinst : inst ∈ insts) :
    ∃ live, v.checkInstruction function id types slots live inst = .ok () := by
  induction insts generalizing live with
  | nil => cases hinst
  | cons first insts ih =>
    obtain ⟨_, hcheck, hrest⟩ := Except.bind_eq_ok.mp hsteps
    rcases List.mem_cons.mp hinst with rfl | hlater
    · exact ⟨live, hcheck⟩
    · cases first <;> exact ih hrest hlater

theorem predecessors_spec : ∀ n ∈ reachableBlocks blocks,
    ∀ p ∈ predecessors blocks (reachableBlocks blocks) n,
      p ∈ reachableBlocks blocks ∧ n ∈ declaredTargets blocks p := by
  intro n _ p hp
  simpa [predecessors] using hp

theorem lookup_of_mem {α β : Type} [BEq α] [LawfulBEq α] {l : List (α × β)} {k : α} {b : β}
    (hnodup : (l.map (·.1)).Nodup) (hmem : (k, b) ∈ l) : l.lookup k = some b := by
  obtain ⟨before, after, rfl⟩ := List.append_of_mem hmem
  refine List.lookup_eq_some_iff.mpr ⟨before, after, rfl, fun p hp => ?_⟩
  rw [List.map_append, List.nodup_append] at hnodup
  exact bne_iff_ne.mpr fun heq => hnodup.2.2 p.1 (List.mem_map_of_mem hp) k (by simp) heq.symm

theorem mem_foldl_storedAfter {insts : List Instruction} {stored : Finset ValueId} {x : ValueId} :
    x ∈ insts.foldl storedAfter stored ↔ x ∈ stored ∨ x ∈ insts.filterMap storedSlot := by
  induction insts generalizing stored with
  | nil => simp
  | cons inst insts ih =>
    rw [List.foldl_cons, ih]
    cases inst <;> simp [storedAfter, storedSlot, or_assoc, or_left_comm]

theorem mem_foldl_liveAfter {insts : List Instruction} {live : Finset ValueId} {x : ValueId} :
    x ∈ insts.foldl liveAfter live ↔ x ∈ live ∨ x ∈ insts.flatMap resultOf := by
  induction insts generalizing live with
  | nil => simp
  | cons inst insts ih =>
    rw [List.foldl_cons, ih, List.flatMap_cons]
    cases inst <;> simp [liveAfter, resultOf, or_assoc, or_left_comm]

theorem checkLoads_cons {inst : Instruction} {insts : List Instruction} {stored : Finset ValueId}
    (h : v.checkLoads function id (inst :: insts) stored = .ok ()) :
    v.checkLoads function id insts (storedAfter stored inst) = .ok () ∧
      ∀ result ty slot, inst = .value result ty (.load slot) → slot ∈ stored := by
  cases inst with
  | value result ty kind =>
    cases kind with
    | load slot =>
      rw [Validator.checkLoads] at h
      split at h
      · rename_i hin
        refine ⟨h, fun _ _ _ heq => ?_⟩
        cases heq
        exact hin
      · cases h
    | _ => exact ⟨h, fun _ _ _ heq => nomatch heq⟩
  | _ => exact ⟨h, fun _ _ _ heq => nomatch heq⟩

theorem checkLoads_append {before after : List Instruction} {stored : Finset ValueId}
    (h : v.checkLoads function id (before ++ after) stored = .ok ()) :
    v.checkLoads function id after (before.foldl storedAfter stored) = .ok () := by
  induction before generalizing stored with
  | nil => exact h
  | cons inst before ih => exact ih (checkLoads_cons h).1

section
variable (h : Admitted v isEntry function blocks)
include h

theorem Admitted.entered : (blocks.get ⟨0⟩).isSome := (blocksById_eq_ok h.keyed).2.2

theorem Admitted.defines_apart {id' : BlockId} {value : ValueId}
    (hid : id ∈ reachableBlocks blocks) (hvalue : value ∈ defines function id)
    (hid' : id' ∈ reachableBlocks blocks) (hvalue' : value ∈ defines function id') : id = id' := by
  have hdefined := (List.nodup_flatMap.mp (List.nodup_append.mp h.once).2.1).2
  have : Std.Symm (Function.onFun List.Disjoint (defines function)) :=
    ⟨fun _ _ h => List.Disjoint.symm h⟩
  by_contra hne
  exact hdefined.forall hid hid' hne hvalue hvalue'

theorem Admitted.defines_eq (hblock : blocks.get id = some block) :
    defines function id = block.instructions.flatMap resultOf := by
  rw [get_eq_findBlock h.keyed] at hblock
  simp [defines, hblock]

theorem Admitted.mem_blocks (hblock : blocks.get id = some block) : block ∈ function.blocks :=
  (blocksById_eq_ok h.keyed).2.1.mem_iff.mp (List.mem_of_find?_eq_some hblock)

theorem Admitted.alloc_before (hverified : Verified function) {slot stored : ValueId} {ty : Ty}
    {mode : OwnershipMode} {before after : List Instruction} (hid : id ∈ reachableBlocks blocks)
    (hblock : blocks.get id = some block)
    (hinsts : block.instructions = before ++ .value slot ty .alloc :: after) {other : BlockId}
    {found : BasicBlock} (hfound : blocks.get other = some found) {j : ℕ}
    (hstore : found.instructions[j]? = some (.store slot stored mode)) {left : List BlockId}
    (hwalk : Dominance.Walk (declaredTargets blocks) ⟨0⟩ (other :: left)) :
    id ∈ left ∨ (id = other ∧ before.length < j) := by
  have hreach := reachable_of_walk h.entered hwalk
  have hslot : slot ∈ defines function id := by
    rw [h.defines_eq hblock, hinsts]
    simp [resultOf]
  obtain ⟨order, fuel, horder, hverify⟩ := hverified.dominated
  have huse : (⟨slot, other, j⟩ : Verify.Use) ∈ Verify.uses function := by
    refine List.mem_flatMap.mpr ⟨found, h.mem_blocks hfound, List.mem_append_left _ ?_⟩
    refine List.mem_flatMap.mpr ⟨(.store slot stored mode, j), List.mk_mem_zipIdx_iff_getElem?.mpr hstore, ?_⟩
    simp [Verify.usedBy, Blocks.id_of_get hfound]
  have hsite : (Verify.definitionSite function slot).isSome := by
    unfold Verify.definitionSite
    rw [Option.isSome_map, List.find?_isSome]
    refine ⟨(block.id, before.length, .value slot ty .alloc), List.mem_flatMap.mpr
      ⟨block, h.mem_blocks hblock, List.mem_map.mpr ⟨(_, before.length), ?_, rfl⟩⟩, by simp⟩
    exact List.mk_mem_zipIdx_iff_getElem?.mpr (by simp [hinsts])
  have hdefined := (Verify.problems_spare_iff horder hverify huse (arrives_of_walk h.keyed hwalk)
    (.inr hsite)).mp (fun _ hnone => absurd hnone List.not_mem_nil) left
    (arrives_of_walk h.keyed hwalk)
  rcases hdefined with hparam | ⟨⟨c, k⟩, hsite, hbefore⟩
  · exact absurd rfl ((List.nodup_append.mp h.once).2.2 slot hparam slot
      (List.mem_flatMap.mpr ⟨id, hid, hslot⟩))
  · have hc : c ∈ reachableBlocks blocks := by
      rcases hbefore with hleft | ⟨hother, -⟩
      · exact hreach c (List.mem_cons_of_mem _ hleft)
      · rw [show c = other from hother]
        exact hreach other List.mem_cons_self
    obtain ⟨⟨c', k', inst⟩, hfind, heq⟩ := Option.map_eq_some_iff.mp hsite
    cases heq
    obtain ⟨first, hfirst, hmem⟩ := List.mem_flatMap.mp (List.mem_of_find?_eq_some hfind)
    obtain ⟨⟨inst', k''⟩, hzip, heq⟩ := List.mem_map.mp hmem
    cases heq
    have hresult : slot ∈ resultOf inst := by
      have hdefines := List.find?_some hfind
      cases inst <;> simp_all [resultOf]
    have hat : first.instructions[k]? = some inst := List.mk_mem_zipIdx_iff_getElem?.mp hzip
    have hget : blocks.get first.id = some first :=
      (get_eq_findBlock h.keyed _).trans
        ((find?_key_iff (blocksById_eq_ok h.keyed).1).mpr ⟨hfirst, rfl⟩)
    have hmine : slot ∈ defines function first.id := by
      rw [h.defines_eq hget]
      exact List.mem_flatMap.mpr ⟨inst, List.mem_of_getElem? hat, hresult⟩
    have hsame := h.defines_apart hid hslot hc hmine
    rcases hbefore with hleft | ⟨hother, hlt⟩
    · exact .inl (hsame ▸ hleft)
    · right
      refine ⟨hsame.trans hother, ?_⟩
      by_contra hge
      -- An earlier definition in the block would be a second one.
      have hlt' : k < before.length := by
        change k < j at hlt
        omega
      rw [hsame, hget] at hblock
      cases hblock
      rw [hinsts, List.getElem?_append_left hlt'] at hat
      have hnodup := (List.nodup_flatMap.mp (List.nodup_append.mp h.once).2.1).1 id hid
      rw [h.defines_eq (hsame ▸ hget), hinsts, List.flatMap_append, List.nodup_append] at hnodup
      exact hnodup.2.2 slot (List.mem_flatMap.mpr ⟨inst, List.mem_of_getElem? hat, hresult⟩) slot
        (by simp [resultOf]) rfl

theorem Admitted.store_slot {slot stored : ValueId} {mode : OwnershipMode}
    (hid : id ∈ reachableBlocks blocks) (hblock : blocks.get id = some block)
    (hinst : .store slot stored mode ∈ block.instructions) :
    slot ∈ allocSlots blocks (reachableBlocks blocks) := by
  have ⟨live, hcheck⟩ := checkInstruction_of_steps (h.steps id hid block hblock) hinst
  simp only [Validator.checkInstruction, Validator.checkStore, Except.guard_eq_ok] at hcheck
  exact not_not.mp hcheck.2.1

theorem Admitted.load_slot {result slot : ValueId} {ty : Ty} (hid : id ∈ reachableBlocks blocks)
    (hblock : blocks.get id = some block)
    (hinst : .value result ty (.load slot) ∈ block.instructions) :
    slot ∈ allocSlots blocks (reachableBlocks blocks) := by
  have ⟨live, hcheck⟩ := checkInstruction_of_steps (h.steps id hid block hblock) hinst
  simp only [Validator.checkInstruction, Validator.checkValue] at hcheck
  split at hcheck
  · cases hcheck
  · exact not_not.mp (Except.guard_eq_ok.mp hcheck).1

theorem Admitted.given_stored : ∀ n ∈ reachableBlocks blocks,
    given blocks storedSlot n ⊆ allocSlots blocks (reachableBlocks blocks) := by
  intro n hn slot hslot
  cases hblock : blocks.get n with
  | none => simp [given, hblock] at hslot
  | some block =>
    simp only [given, hblock, Option.map_some, Option.getD_some, List.mem_toFinset,
      List.mem_filterMap] at hslot
    obtain ⟨inst, hinst, hstored⟩ := hslot
    cases inst <;> cases hstored
    exact h.store_slot hn hblock hinst

/-- No slot is stored before it is allocated. -/
theorem Admitted.alloc_fresh (hverified : Verified function) {slot : ValueId} {ty : Ty}
    {before after : List Instruction} (hid : id ∈ reachableBlocks blocks)
    (hblock : blocks.get id = some block)
    (hinsts : block.instructions = before ++ .value slot ty .alloc :: after) :
    slot ∉ storedAt blocks id ∧ slot ∉ before.filterMap storedSlot := by
  obtain ⟨_, hany⟩ := walk_of_reachable h.entered hid
  obtain ⟨left, hwalk, hnew⟩ := hany.first
  constructor
  · intro hstored
    have halloc : .value slot ty .alloc ∈ block.instructions := by simp [hinsts]
    have hslot : slot ∈ allocSlots blocks (reachableBlocks blocks) :=
      List.mem_toFinset.mpr
        (List.mem_filterMap.mpr ⟨_, mem_reachableInstructions hblock hid halloc, rfl⟩)
    have hestablished := (MustFacts.mem_facts_iff h.given_stored (Finset.empty_subset _)
      predecessors_spec (fun n hn m hm => ⟨target_reachable h.entered hn hm, by
        simpa [predecessors] using ⟨hn, hm⟩⟩) (entry_reachable h.entered) hid hslot).mp hstored
    rcases hestablished left hwalk with hnone | ⟨p, hp, hgives⟩
    · cases hnone
    · -- The store is in a block this way has left, and before it has come to the allocation.
      obtain ⟨later, earlier, rfl⟩ := List.append_of_mem hp
      have hsuffix : p :: earlier <:+ id :: (later ++ p :: earlier) :=
        (List.suffix_append later _).trans (List.suffix_cons id _)
      have hpart := hwalk.suffix hsuffix
      cases hfound : blocks.get p with
      | none => simp [given, hfound] at hgives
      | some found =>
        simp only [given, hfound, Option.map_some, Option.getD_some, List.mem_toFinset,
          List.mem_filterMap] at hgives
        obtain ⟨inst, hinst, hstores⟩ := hgives
        cases inst <;> cases hstores
        obtain ⟨j, hj⟩ := List.getElem?_of_mem hinst
        rcases h.alloc_before hverified hid hblock hinsts hfound hj hpart with hleft | ⟨rfl, -⟩
        · exact hnew (List.mem_append_right _ (List.mem_cons_of_mem _ hleft))
        · exact hnew (List.mem_append_right _ List.mem_cons_self)
  · intro hstored
    obtain ⟨inst, hinst, hstores⟩ := List.mem_filterMap.mp hstored
    cases inst <;> cases hstores
    obtain ⟨j, hj⟩ := List.getElem?_of_mem hinst
    have hlt := (List.getElem?_eq_some_iff.mp hj).1
    rcases h.alloc_before hverified hid hblock hinsts hblock (j := j)
      (by rw [hinsts, List.getElem?_append_left hlt]; exact hj) hwalk with hleft | ⟨-, hafter⟩
    · exact hnew hleft
    · omega

theorem Admitted.sited (hverified : Verified function) {functions : List ItemId}
    (hclosed : ∀ callee ∈ directCallees blocks (reachableBlocks blocks), (v.get callee).isSome →
      callee ∈ functions) (hid : id ∈ reachableBlocks blocks) (hblock : blocks.get id = some block)
    {before after : List Instruction} {inst : Instruction}
    (hinsts : block.instructions = before ++ inst :: after) :
    Sited v functions (definitions function blocks (reachableBlocks blocks))
      (allocSlots blocks (reachableBlocks blocks))
      (before.foldl storedAfter (storedAt blocks id)) inst := by
  have hmem : inst ∈ block.instructions := by simp [hinsts]
  have hreach := mem_reachableInstructions hblock hid hmem
  constructor
  · rintro result ty kind rfl
    exact lookup_of_mem h.unique (List.mem_append_right _ (List.mem_filterMap.mpr ⟨_, hreach, rfl⟩))
  · rintro result ty slot rfl
    have hslot := h.load_slot hid hblock hmem
    have hloads := h.loads (Finset.ne_empty_of_mem hslot) id hid block hblock
    rw [hinsts] at hloads
    exact (checkLoads_cons (checkLoads_append hloads)).2 result ty slot rfl
  · rintro result ty rfl
    constructor
    · exact List.mem_toFinset.mpr (List.mem_filterMap.mpr ⟨_, hreach, rfl⟩)
    · rw [mem_foldl_storedAfter, not_or]
      exact h.alloc_fresh hverified hid hblock hinsts
  · rintro result i rfl
    exact hverified.consts block (h.mem_blocks hblock) result i hmem
  · intro callee hcallee
    refine hclosed callee (List.mem_flatMap.mpr ⟨id, hid, ?_⟩)
    rw [hblock]
    exact List.mem_append_left _ (List.mem_filterMap.mpr ⟨inst, hmem, hcallee⟩)

theorem Admitted.given_defined (n : BlockId) :
    given blocks (fun inst => (definitionOf inst).map (·.1)) n = (defines function n).toFinset := by
  ext x
  rw [given, List.mem_toFinset, List.mem_toFinset, defines, ← get_eq_findBlock h.keyed,
    ← filterMap_definitionOf, List.map_filterMap]

theorem Admitted.defined_all : (∀ n ∈ reachableBlocks blocks,
    given blocks (fun inst => (definitionOf inst).map (·.1)) n ⊆
      ((definitions function blocks (reachableBlocks blocks)).map (·.1)).toFinset) ∧
    parametersOf function ⊆
      ((definitions function blocks (reachableBlocks blocks)).map (·.1)).toFinset := by
  constructor
  · intro n hn x hx
    rw [h.given_defined, List.mem_toFinset] at hx
    rw [List.mem_toFinset, map_definitions h.keyed]
    exact List.mem_append_right _ (List.mem_flatMap.mpr ⟨n, hn, hx⟩)
  · intro x hx
    rw [List.mem_toFinset, map_definitions h.keyed]
    exact List.mem_append_left _ (List.mem_toFinset.mp hx)

theorem Admitted.at_entry :
    availableAt function blocks ⟨0⟩ = parametersOf function ∧ storedAt blocks ⟨0⟩ = ∅ :=
  ⟨MustFacts.facts_start h.defined_all.1 h.defined_all.2 predecessors_spec,
    MustFacts.facts_start h.given_stored (Finset.empty_subset _) predecessors_spec⟩

theorem Admitted.storedAt_target (hid : id ∈ reachableBlocks blocks)
    (htarget : target ∈ declaredTargets blocks id) :
    storedAt blocks target ⊆ storedAt blocks id ∪ given blocks storedSlot id := by
  intro slot hslot
  have hin := target_reachable h.entered hid htarget
  by_cases hne : target = ⟨0⟩
  · rw [hne, h.at_entry.2] at hslot
    cases hslot
  · rw [Finset.mem_union]
    refine MustFacts.facts_pred h.given_stored (Finset.empty_subset _) predecessors_spec hin hne ?_
      hslot
    simpa [predecessors] using ⟨hid, htarget⟩

theorem Admitted.availableAt_target (hid : id ∈ reachableBlocks blocks)
    (hblock : blocks.get id = some block) (htarget : target ∈ declaredTargets blocks id) :
    availableAt function blocks target ∪ parametersOf function ⊆
      block.instructions.foldl liveAfter (availableAt function blocks id ∪ parametersOf function) := by
  intro x hx
  rw [mem_foldl_liveAfter, Finset.mem_union]
  rcases Finset.mem_union.mp hx with hx | hx
  · by_cases hne : target = ⟨0⟩
    · rw [hne, h.at_entry.1] at hx
      exact .inl (.inr hx)
    · have hpred := MustFacts.facts_pred h.defined_all.1 h.defined_all.2 predecessors_spec
        (target_reachable h.entered hid htarget) hne
        (by simpa [predecessors] using ⟨hid, htarget⟩) hx
      rw [h.given_defined, List.mem_toFinset, h.defines_eq hblock] at hpred
      rcases hpred with hbefore | hhere
      · exact .inl (.inl hbefore)
      · exact .inr hhere
  · exact .inl (.inr hx)

/-! ### Runs -/

variable {m : Module} {call : Function → List Datum → Except Halt Datum} {functions : List ItemId}
  {env : Env}

/-- A frame that fits runs on safely, by induction on the fuel. -/
theorem Admitted.runBlocks_safe (hverified : Verified function)
    (hclosed : ∀ callee ∈ directCallees blocks (reachableBlocks blocks), (v.get callee).isSome →
      callee ∈ functions) (hget : ∀ id, v.get id = m.findFunction id)
    (hcalls : SafeCalls v functions call) (n : ℕ) (hid : id ∈ reachableBlocks blocks)
    (hfits : Fits (definitions function blocks (reachableBlocks blocks))
      (allocSlots blocks (reachableBlocks blocks))
      (availableAt function blocks id ∪ parametersOf function) (storedAt blocks id) env) :
    Safe (Reference.runBlocks m call function n id env)
      (fun d => scalarOf function.returnType = some d.scalar) := by
  induction n generalizing id env with
  | zero => exact nofun
  | succ n ih =>
    obtain ⟨block, hblock⟩ := Option.isSome_iff_exists.mp (get_of_reachable h.entered hid)
    rw [Reference.runBlocks, ← get_eq_findBlock h.keyed, hblock]
    refine (hfits.steps hget hcalls (fun before inst after hinsts =>
      h.sited hverified hclosed hid hblock hinsts) (h.steps id hid block hblock)).bind ?_
    rintro ⟨env', next⟩ ⟨hfits', hleads⟩
    cases next with
    | exit d => exact hleads
    | goto target =>
      have htarget : target ∈ declaredTargets blocks id :=
        mem_declaredTargets.mpr ⟨⟨block, hblock, hleads.1⟩, hleads.2⟩
      refine ih (target_reachable h.entered hid htarget) (hfits'.weaken
        (h.availableAt_target hid hblock htarget) fun slot hslot => ?_)
      rw [mem_foldl_storedAfter]
      rcases Finset.mem_union.mp (h.storedAt_target hid htarget hslot) with hbefore | hhere
      · exact .inl hbefore
      · simp only [given, hblock, Option.map_some, Option.getD_some, List.mem_toFinset] at hhere
        exact .inr hhere

end

theorem bindAll_matches {params : List Param} {ds : List Datum}
    (hplain : ∀ param ∈ params, param.take = false)
    (hmatch : List.Forall₂ (fun param d => scalarOf param.ty = some d.scalar) params ds) (env : Env) :
    ∃ env', Reference.bindAll params ds env = .ok env' ∧
      (∀ id, id ∈ params.map (·.value) ∨ (env id).isSome → (env' id).isSome) ∧
      ∀ id d, env' id = some d → env id = some d ∨
        ∃ param ∈ params, param.value = id ∧ scalarOf param.ty = some d.scalar := by
  induction hmatch generalizing env with
  | nil => exact ⟨env, rfl, fun id hid => hid.resolve_left List.not_mem_nil, fun _ _ hd => .inl hd⟩
  | @cons param d params ds hty _ ih =>
    have ⟨env', hbind, hdefined, hgiven⟩ := ih (fun p hp => hplain p (List.mem_cons_of_mem _ hp))
      (Function.update env param.value (some d))
    refine ⟨env', ?_, fun id hid => hdefined id ?_, fun id e he => ?_⟩
    · rw [Reference.bindAll, Reference.expect_eq_ok.mpr hty, hplain param List.mem_cons_self]
      exact hbind
    · rw [List.map_cons, List.mem_cons] at hid
      rw [Function.update_apply]
      split
      · exact .inr rfl
      · rename_i hne
        rcases hid with (heq | hid) | hid
        · exact absurd heq hne
        · exact .inl hid
        · exact .inr hid
    · rcases hgiven id e he with hearlier | ⟨p, hp, hid, hscalar⟩
      · rw [Function.update_apply] at hearlier
        split at hearlier
        · rename_i heq
          cases hearlier
          exact .inr ⟨param, List.mem_cons_self, heq.symm, hty⟩
        · exact .inl hearlier
      · exact .inr ⟨p, List.mem_cons_of_mem _ hp, hid, hscalar⟩

/-- Every admitted function is safe to call, by induction on the depth. -/
theorem runFunction_safe {m : Module} {functions : List ItemId}
    (hget : ∀ id, v.get id = m.findFunction id)
    (hadmitted : ∀ id ∈ functions, ∀ f, v.get id = some f → ∃ isEntry blocks,
      Admitted v isEntry f blocks ∧ Verified f ∧
        ∀ callee ∈ directCallees blocks (reachableBlocks blocks), (v.get callee).isSome →
          callee ∈ functions) (n depth : ℕ) :
    SafeCalls v functions (Reference.runFunction m n depth) := by
  induction n generalizing depth with
  | zero => exact fun _ _ _ _ _ _ h => by cases h
  | succ n ih =>
    intro id hid f ds hf hmatch
    obtain ⟨isEntry, blocks, h, hverified, hclosed⟩ := hadmitted id hid f hf
    rw [Reference.runFunction]
    split
    · exact fun h => by cases h
    have hentry := h.entered
    rw [get_eq_findBlock h.keyed] at hentry
    rw [if_pos (by simp [h.typeParams, h.requirements, hentry])]
    obtain ⟨env, hbind, hdefined, hgiven⟩ := bindAll_matches (fun p hp => (h.params p hp).1) hmatch
      fun _ => none
    rw [hbind]
    refine h.runBlocks_safe hverified hclosed hget (ih (depth + 1)) n (entry_reachable h.entered) ?_
    constructor
    · intro id d hd
      rcases hgiven id d hd with hnone | ⟨param, hparam, rfl, hscalar⟩
      · cases hnone
      · rw [lookup_of_mem h.unique (List.mem_append_left _ (List.mem_map_of_mem hparam))]
        exact hscalar
    · intro id hid _
      rw [h.at_entry.1, Finset.union_self] at hid
      exact hdefined id (.inl (List.mem_toFinset.mp hid))
    · intro id hid
      rw [h.at_entry.2] at hid
      cases hid

end
end Napitia.Native

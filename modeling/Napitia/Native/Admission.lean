import Napitia.Lib.Walk
import Napitia.Native.Capability

/-!
# What a plan stands for

The facts later proofs read off a program the capability check accepts: what is planned is
what `main` reaches, each function of it has passed every check, and no function calls its way
back to itself.
-/
namespace Napitia.Native
open Nir

section
variable {α β : Type} [DecidableEq β] {key : α → β} {l l' : List α}

theorem find?_key_iff (hnodup : (l.map key).Nodup) {k : β} {entry : α} :
    l.find? (fun e => key e = k) = some entry ↔ entry ∈ l ∧ key entry = k := by
  constructor
  · intro h
    exact ⟨List.mem_of_find?_eq_some h, by simpa using List.find?_some h⟩
  · intro h
    cases hfind : l.find? (fun e => key e = k) with
    | none =>
      have hnot := List.find?_eq_none.mp hfind entry h.1
      simp [h.2] at hnot
    | some found =>
      have hmem := List.mem_of_find?_eq_some hfind
      have hkey : key found = k := by simpa using List.find?_some hfind
      rw [List.inj_on_of_nodup_map hnodup hmem h.1 (hkey.trans h.2.symm)]

theorem find?_key_perm (hnodup : (l.map key).Nodup) (hperm : l.Perm l') (k : β) :
    l.find? (fun e => key e = k) = l'.find? (fun e => key e = k) := by
  have hnodup' : (l'.map key).Nodup := (hperm.map key).nodup_iff.mp hnodup
  apply Option.ext
  intro entry
  rw [find?_key_iff hnodup, find?_key_iff hnodup', hperm.mem_iff]

theorem firstRepeated_eq_none {seen ids : List β} (h : firstRepeated seen ids = none) :
    ids.Nodup ∧ ∀ id ∈ ids, id ∉ seen := by
  induction ids generalizing seen with
  | nil => exact ⟨List.nodup_nil, fun _ hmem => absurd hmem List.not_mem_nil⟩
  | cons id rest ih =>
    rw [firstRepeated] at h
    split at h
    · cases h
    · rename_i hfresh
      have hrest := ih h
      constructor
      · rw [List.nodup_cons]
        exact ⟨fun hmem => hrest.2 id hmem List.mem_cons_self, hrest.1⟩
      · intro other hother
        rcases List.mem_cons.mp hother with rfl | hother
        · exact hfresh
        · exact fun hmem => hrest.2 other hother (List.mem_cons_of_mem _ hmem)

end

theorem refuse_eq_ok {ε : Type} {c : Prop} [Decidable c] {e : ε} :
    (if c then (throw e : Except ε Unit) else pure ()) = .ok () ↔ ¬ c := by
  by_cases hc : c
  · simp [hc, throw, throwThe, MonadExceptOf.throw]
  · simp [hc, pure, Except.pure]

/-! ### Blocks -/

section
variable {v : Validator} {function : Function} {blocks : Blocks} {id target : BlockId}

theorem blocksById_eq_ok (h : v.blocksById function = .ok blocks) :
    (function.blocks.map (·.id)).Nodup ∧ blocks.Perm function.blocks ∧
      (blocks.get ⟨0⟩).isSome := by
  unfold Validator.blocksById at h
  split at h
  · cases h
  · rename_i hnone
    dsimp only at h
    split at h
    · cases h
    · rename_i hentry
      cases h
      exact ⟨(firstRepeated_eq_none hnone).1, List.perm_insertionSort _ _,
        by simpa [Option.isNone_iff_eq_none, Option.isSome_iff_ne_none] using hentry⟩

/-- A block by its id, whatever order the function stores its blocks in. -/
theorem get_eq_findBlock (h : v.blocksById function = .ok blocks) (id : BlockId) :
    blocks.get id = function.findBlock id := by
  obtain ⟨hnodup, hperm, -⟩ := blocksById_eq_ok h
  exact (find?_key_perm hnodup hperm.symm id).symm

theorem Blocks.id_of_get {block : BasicBlock} (h : blocks.get id = some block) : block.id = id := by
  simpa using List.find?_some h

theorem mem_sortBlocks {ids : List BlockId} : id ∈ sortBlocks ids ↔ id ∈ ids :=
  List.mem_insertionSort _

theorem mem_sortItems {ids : List ItemId} {item : ItemId} : item ∈ sortItems ids ↔ item ∈ ids :=
  List.mem_insertionSort _

theorem mem_declaredTargets :
    target ∈ declaredTargets blocks id ↔ (∃ block, blocks.get id = some block ∧
      target ∈ terminatorTargets block.terminator) ∧ (blocks.get target).isSome := by
  unfold declaredTargets
  cases blocks.get id with
  | none => simp
  | some block => simp

/-- The blocks in reach are those a path from `bb0` comes to, each of them once. -/
theorem reachableBlocks_spec (hentry : (blocks.get ⟨0⟩).isSome) :
    (reachableBlocks blocks).Nodup ∧ ∀ id, id ∈ reachableBlocks blocks ↔
      Relation.ReflTransGen (fun a b => b ∈ declaredTargets blocks a) ⟨0⟩ id := by
  have hdeclared : ∀ id, (blocks.get id).isSome → id ∈ blocks.map (·.id) := by
    intro id hid
    obtain ⟨block, hblock⟩ := Option.isSome_iff_exists.mp hid
    rw [← Blocks.id_of_get hblock]
    exact List.mem_map_of_mem (List.mem_of_find?_eq_some hblock)
  have hclosed : ∀ id ∈ blocks.map (·.id), ∀ target ∈ declaredTargets blocks id,
      target ∈ blocks.map (·.id) :=
    fun _ _ target htarget => hdeclared target (mem_declaredTargets.mp htarget).2
  have hspec := Breadth.reach_spec hclosed (hdeclared ⟨0⟩ hentry)
  rw [List.length_map] at hspec
  unfold reachableBlocks
  rw [if_pos hentry]
  constructor
  · exact ((List.perm_insertionSort _ _).nodup_iff).mpr hspec.1
  · intro id
    exact mem_sortBlocks.trans (hspec.2 id)

theorem get_of_reachable (hentry : (blocks.get ⟨0⟩).isSome) (hid : id ∈ reachableBlocks blocks) :
    (blocks.get id).isSome := by
  have hpath := ((reachableBlocks_spec hentry).2 id).mp hid
  cases hpath with
  | refl => exact hentry
  | tail _ hedge => exact (mem_declaredTargets.mp hedge).2

theorem entry_reachable (hentry : (blocks.get ⟨0⟩).isSome) : ⟨0⟩ ∈ reachableBlocks blocks :=
  ((reachableBlocks_spec hentry).2 _).mpr .refl

theorem target_reachable (hentry : (blocks.get ⟨0⟩).isSome) (hid : id ∈ reachableBlocks blocks)
    (htarget : target ∈ declaredTargets blocks id) : target ∈ reachableBlocks blocks :=
  ((reachableBlocks_spec hentry).2 _).mpr ((((reachableBlocks_spec hentry).2 id).mp hid).tail htarget)

end

/-! ### A function that has passed -/

section
variable {v : Validator} {function : Function} {blocks : Blocks} {isEntry : Bool}

def parametersOf (function : Function) : Finset ValueId :=
  (function.params.map (·.value)).toFinset

/-- What is defined on every path to a block in reach. -/
def availableAt (function : Function) (blocks : Blocks) : BlockId → Finset ValueId :=
  mustReach blocks (reachableBlocks blocks)
    ((definitions function blocks (reachableBlocks blocks)).map (·.1)).toFinset
    (parametersOf function) fun instruction => (definitionOf instruction).map (·.1)

/-- What is stored on every path to a block in reach. -/
def storedAt (blocks : Blocks) : BlockId → Finset ValueId :=
  mustReach blocks (reachableBlocks blocks) (allocSlots blocks (reachableBlocks blocks)) ∅
    storedSlot

structure Admitted (v : Validator) (isEntry : Bool) (function : Function) (blocks : Blocks) :
    Prop where
  keyed : v.blocksById function = .ok blocks
  typeParams : function.typeParams = []
  requirements : function.requirements = []
  raises : function.raises = []
  params : ∀ param ∈ function.params, param.take = false ∧ (scalarOf param.ty).isSome
  returned : (scalarOf function.returnType).isSome
  entry : isEntry = true → function.params = [] ∧
    (scalarOf function.returnType = some .int ∨ scalarOf function.returnType = some .unit)
  unique : ((definitions function blocks (reachableBlocks blocks)).map (·.1)).Nodup
  steps : ∀ id ∈ reachableBlocks blocks, ∀ block, blocks.get id = some block →
    v.checkSteps function blocks (definitions function blocks (reachableBlocks blocks))
      (allocSlots blocks (reachableBlocks blocks)) id block.terminator block.instructions
      (availableAt function blocks id ∪ parametersOf function) = .ok ()
  loads : allocSlots blocks (reachableBlocks blocks) ≠ ∅ → ∀ id ∈ reachableBlocks blocks,
    ∀ block, blocks.get id = some block →
      v.checkLoads function id block.instructions (storedAt blocks id) = .ok ()

theorem checkSignature_ok (h : v.checkSignature function isEntry = .ok ()) :
    function.typeParams = [] ∧ function.requirements = [] ∧ function.raises = [] ∧
      (∀ param ∈ function.params, param.take = false ∧ (scalarOf param.ty).isSome) ∧
      (scalarOf function.returnType).isSome ∧ (isEntry = true → function.params = [] ∧
        (scalarOf function.returnType = some .int ∨
          scalarOf function.returnType = some .unit)) := by
  unfold Validator.checkSignature at h
  simp only [Except.guard_eq_ok] at h
  obtain ⟨htype, hrequirements, hraises, h⟩ := h
  have hentry : isEntry = true → v.checkEntry function = .ok () := by
    intro htrue
    rw [if_pos htrue, Except.bind_eq_ok] at h
    exact h.elim fun _ hentry => hentry.1
  have hrest : (function.params.forM (v.checkParam function.id)) = .ok () ∧
      ¬ scalarOf function.returnType = none := by
    split at h
    · obtain ⟨_, -, h⟩ := Except.bind_eq_ok.mp h
      obtain ⟨_, hparams, hreturned⟩ := Except.bind_eq_ok.mp h
      exact ⟨hparams, refuse_eq_ok.mp hreturned⟩
    · obtain ⟨_, hparams, hreturned⟩ := Except.bind_eq_ok.mp h
      exact ⟨hparams, refuse_eq_ok.mp hreturned⟩
  refine ⟨by simpa using htype, by simpa using hrequirements, by simpa using hraises, ?_, ?_, ?_⟩
  · intro param hparam
    have hone := Except.forM_eq_ok.mp hrest.1 param hparam
    unfold Validator.checkParam at hone
    rw [Except.guard_eq_ok, refuse_eq_ok] at hone
    exact ⟨by simpa using hone.1, Option.isSome_iff_ne_none.mpr hone.2⟩
  · exact Option.isSome_iff_ne_none.mpr hrest.2
  · intro htrue
    have hone := hentry htrue
    unfold Validator.checkEntry at hone
    simp only [Except.guard_eq_ok, refuse_eq_ok] at hone
    constructor
    · simpa using hone.1
    · tauto

/-- What a body whose check passes meets at each reached block. -/
theorem checkBody_ok (hkeyed : v.blocksById function = .ok blocks)
    (h : v.checkBody function (reachableBlocks blocks) = .ok ()) :
    ((definitions function blocks (reachableBlocks blocks)).map (·.1)).Nodup ∧
    (∀ id ∈ reachableBlocks blocks, ∀ block, blocks.get id = some block →
      v.checkSteps function blocks (definitions function blocks (reachableBlocks blocks))
        (allocSlots blocks (reachableBlocks blocks)) id block.terminator block.instructions
        (availableAt function blocks id ∪ parametersOf function) = .ok ()) ∧
    (allocSlots blocks (reachableBlocks blocks) ≠ ∅ → ∀ id ∈ reachableBlocks blocks,
      ∀ block, blocks.get id = some block →
        v.checkLoads function id block.instructions (storedAt blocks id) = .ok ()) := by
  unfold Validator.checkBody Validator.checkSlotInitialization Validator.valueTypes at h
  simp only [hkeyed, Except.bind_eq_ok] at h
  obtain ⟨_, hblocks, types, htypes, _, hsteps, hloads⟩ := h
  cases hblocks
  split at htypes
  · cases htypes
  · rename_i hnone
    cases htypes
    refine ⟨(firstRepeated_eq_none hnone).1, ?_, ?_⟩
    · intro id hid block hblock
      have hone := Except.forM_eq_ok.mp hsteps id hid
      rw [hblock] at hone
      exact hone
    · intro hslots id hid block hblock
      rw [if_neg hslots] at hloads
      have hone := Except.forM_eq_ok.mp hloads id hid
      rw [hblock] at hone
      exact hone

theorem admitted_of_validate (hkeyed : v.blocksById function = .ok blocks)
    (h : v.validateFunction function isEntry (reachableBlocks blocks) = .ok ()) :
    Admitted v isEntry function blocks := by
  unfold Validator.validateFunction at h
  obtain ⟨_, -, h⟩ := Except.bind_eq_ok.mp h
  obtain ⟨_, hsignature, hbody⟩ := Except.bind_eq_ok.mp h
  obtain ⟨htype, hrequirements, hraises, hparams, hreturned, hentry⟩ := checkSignature_ok hsignature
  obtain ⟨hunique, hsteps, hloads⟩ := checkBody_ok hkeyed hbody
  exact ⟨hkeyed, htype, hrequirements, hraises, hparams, hreturned, hentry, hunique, hsteps, hloads⟩

end

/-! ### The functions of a plan -/

section
variable {m : Module} {source : Hir.Declarations.SourceId} {resolve : Symbol → String}
  {registry : ItemRegistry} {displayTy : Ty → String} {target : String}
  {imports : List Lexer.Span} {plan : NativePlan} {v : Validator}

theorem duplicateFunctions_eq_nil {seen : List ItemId} {functions : List Function}
    (h : duplicateFunctions v seen functions = []) :
    (functions.map (·.id)).Nodup ∧ ∀ f ∈ functions, f.id ∉ seen := by
  induction functions generalizing seen with
  | nil => exact ⟨List.nodup_nil, fun _ hmem => absurd hmem List.not_mem_nil⟩
  | cons f rest ih =>
    rw [duplicateFunctions, List.append_eq_nil_iff] at h
    have hfresh : f.id ∉ seen := by
      intro hmem
      rw [if_pos hmem] at h
      exact List.cons_ne_nil _ _ h.1
    have hrest := ih h.2
    constructor
    · rw [List.map_cons, List.nodup_cons]
      constructor
      · intro hmem
        obtain ⟨g, hg, heq⟩ := List.mem_map.mp hmem
        exact hrest.2 g hg (by rw [heq]; exact List.mem_cons_self)
      · exact hrest.1
    · intro g hg
      rcases List.mem_cons.mp hg with rfl | hg
      · exact hfresh
      · exact fun hmem => hrest.2 g hg (List.mem_cons_of_mem _ hmem)

/-- What the plan of a module stands for. -/
structure Planned (m : Module) (v : Validator) (plan : NativePlan) : Prop where
  unique : (m.functions.map (·.id)).Nodup
  get_eq : ∀ id, v.get id = m.findFunction id
  entry_named : ∃ f, m.findFunction plan.entry = some f ∧ v.resolve f.name = entryName ∧
    scalarOf f.returnType = some plan.entryResult
  only : ∀ f ∈ m.functions, v.resolve f.name = entryName → f.id = plan.entry
  sorted : plan.functions.Pairwise fun a b => a.index < b.index
  mem_iff : ∀ id, id ∈ plan.functions ↔ Relation.ReflTransGen
    (fun a b => b ∈ (v.calleesOf a).filter fun callee => (v.get callee).isSome) plan.entry id
  admitted : ∀ id ∈ plan.functions, ∃ f blocks, m.findFunction id = some f ∧
    plan.reachableBlocks id = some (reachableBlocks blocks) ∧
    Admitted v (id = plan.entry) f blocks
  acyclic : v.reportCycles plan.functions = []

theorem lookup_filterMap_keyed {β : Type} {ids : List ItemId} {f : ItemId → Option β} (id : ItemId)
    (hid : id ∈ ids) : (ids.filterMap fun id => (f id).map (id, ·)).lookup id = f id := by
  induction ids with
  | nil => cases hid
  | cons other rest ih =>
    rw [List.filterMap_cons]
    by_cases heq : other = id
    · subst heq
      cases hf : f other with
      | none =>
        simp only [Option.map_none]
        by_cases hmem : other ∈ rest
        · rw [ih hmem, hf]
        · refine List.lookup_eq_none_iff.mpr fun p hp => ?_
          obtain ⟨k, hk, heq⟩ := List.mem_filterMap.mp hp
          obtain ⟨b, -, rfl⟩ := Option.map_eq_some_iff.mp heq
          have hne : other ≠ k := fun h => hmem (h ▸ hk)
          simpa using hne
      | some b => simp
    · have hrest := (List.mem_cons.mp hid).resolve_left (Ne.symm heq)
      cases hf : f other with
      | none => exact ih hrest
      | some b =>
        simp only [Option.map_some]
        rw [List.lookup_cons, show (id == other) = false by simpa using Ne.symm heq]
        exact ih hrest

theorem ok_of_errorOf {α : Type} {x : Except Diagnostic α} (h : Validator.errorOf x = none) :
    ∃ a, x = .ok a := by
  cases x with
  | error d => cases h
  | ok a => exact ⟨a, rfl⟩

theorem filterMap_eq_nil {α β : Type} {f : α → Option β} {l : List α} (h : l.filterMap f = [])
    {a : α} (ha : a ∈ l) : f a = none := by
  cases hf : f a with
  | none => rfl
  | some b =>
    have hmem : b ∈ l.filterMap f := List.mem_filterMap.mpr ⟨a, ha, hf⟩
    rw [h] at hmem
    cases hmem

theorem findEntry_ok {entry : ItemId} (h : v.findEntry = .ok entry) :
    (∃ f ∈ v.functions, v.resolve f.name = entryName ∧ f.id = entry) ∧
      ∀ f ∈ v.functions, v.resolve f.name = entryName → f.id = entry := by
  unfold Validator.findEntry at h
  split at h
  · cases h
  · rename_i single hsingle
    cases h
    have honly : ∀ f ∈ v.functions, v.resolve f.name = entryName → f.id = entry := by
      intro f hf hname
      have hmem : f.id ∈ (v.functions.filter fun f => v.resolve f.name = entryName).map (·.id) :=
        List.mem_map_of_mem (List.mem_filter.mpr ⟨hf, by simpa using hname⟩)
      rw [hsingle] at hmem
      exact List.mem_singleton.mp hmem
    have hmem : entry ∈ (v.functions.filter fun f => v.resolve f.name = entryName).map (·.id) := by
      rw [hsingle]
      exact List.mem_singleton_self entry
    obtain ⟨f, hf, hid⟩ := List.mem_map.mp hmem
    have hfilter := List.mem_filter.mp hf
    exact ⟨⟨f, hfilter.1, by simpa using hfilter.2, hid⟩, honly⟩
  · cases h

theorem sortItems_sorted {ids : List ItemId} (h : ids.Nodup) :
    (sortItems ids).Pairwise fun a b => a.index < b.index := by
  have hle : (sortItems ids).Pairwise fun a b => a.index ≤ b.index := by
    have : Std.Total fun a b : ItemId => a.index ≤ b.index := ⟨fun a b => Nat.le_total _ _⟩
    have : IsTrans ItemId fun a b => a.index ≤ b.index := ⟨fun _ _ _ => Nat.le_trans⟩
    exact List.pairwise_insertionSort _ _
  have hne : (sortItems ids).Nodup := ((List.perm_insertionSort _ _).nodup_iff).mpr h
  refine hle.imp₂ (fun a b hab hne => ?_) hne
  have hindex : a.index ≠ b.index := fun heq => hne (by cases a; cases b; simp_all)
  omega

section
variable (hunique : (v.functions.map (·.id)).Nodup) {entry : ItemId} {earlier : List Diagnostic}
include hunique

theorem get_eq_some {id : ItemId} {f : Function} : v.get id = some f ↔ f ∈ v.functions ∧ f.id = id :=
  find?_key_iff hunique

theorem reachedFunctions_spec (hentry : (v.get entry).isSome) :
    (v.reachedFunctions entry).Nodup ∧ ∀ id, id ∈ v.reachedFunctions entry ↔
      Relation.ReflTransGen
        (fun a b => b ∈ (v.calleesOf a).filter fun callee => (v.get callee).isSome) entry id := by
  have hdeclared : ∀ id, (v.get id).isSome → id ∈ v.functions.map (·.id) := by
    intro id hid
    obtain ⟨f, hf⟩ := Option.isSome_iff_exists.mp hid
    obtain ⟨hmem, rfl⟩ := (get_eq_some hunique).mp hf
    exact List.mem_map_of_mem hmem
  have hclosed : ∀ id ∈ v.functions.map (·.id),
      ∀ callee ∈ (v.calleesOf id).filter fun callee => (v.get callee).isSome,
        callee ∈ v.functions.map (·.id) :=
    fun _ _ callee hcallee => hdeclared callee (List.mem_filter.mp hcallee).2
  have hspec := Breadth.reach_spec hclosed (hdeclared entry hentry)
  rw [List.length_map] at hspec
  exact hspec

/-- What is planned from an entry, and that each function of it is admitted. -/
theorem planFrom_ok (hentry : (v.get entry).isSome) (h : planFrom v earlier entry = .ok plan) :
    plan.entry = entry ∧
    (∃ f, v.get entry = some f ∧ scalarOf f.returnType = some plan.entryResult) ∧
    plan.functions = sortItems (v.reachedFunctions entry) ∧
    v.reportCycles plan.functions = [] ∧
    ∀ id ∈ plan.functions, ∃ f blocks, v.get id = some f ∧
      plan.reachableBlocks id = some (reachableBlocks blocks) ∧
      Admitted v (id = entry) f blocks := by
  obtain ⟨-, hmem⟩ := reachedFunctions_spec hunique hentry
  have hget : ∀ id ∈ v.reachedFunctions entry, ∃ f, v.get id = some f := by
    intro id hid
    have hpath := (hmem id).mp hid
    cases hpath with
    | refl => exact Option.isSome_iff_exists.mp hentry
    | tail _ hedge => exact Option.isSome_iff_exists.mp (List.mem_filter.mp hedge).2
  unfold planFrom at h
  dsimp only at h
  split at h
  · cases h
  rename_i hproblems
  simp only [ne_eq, not_not, List.append_eq_nil_iff] at hproblems
  obtain ⟨⟨⟨-, hkeys⟩, hproblem⟩, hcycles⟩ := hproblems
  split at h
  · cases h
  rename_i result hresult
  cases h
  refine ⟨rfl, Option.bind_eq_some_iff.mp hresult, rfl, hcycles, ?_⟩
  intro id hid
  have hreached := mem_sortItems.mp hid
  obtain ⟨f, hf⟩ := hget id hreached
  have hkey := filterMap_eq_nil hkeys hreached
  rw [hf] at hkey
  obtain ⟨blocks, hblocks⟩ := ok_of_errorOf hkey
  have hplans : ((v.reachedFunctions entry).filterMap v.blockPlan).lookup id =
      some (reachableBlocks blocks) := by
    have hkeyed : (fun id => ((v.blockPlan id).map (·.2)).map (id, ·)) = v.blockPlan := by
      funext id
      unfold Validator.blockPlan
      cases v.get id <;> rfl
    have hlookup := lookup_filterMap_keyed (f := fun id => (v.blockPlan id).map (·.2)) id hreached
    rw [hkeyed, Validator.blockPlan, hf] at hlookup
    simp only [Option.map_some, hblocks] at hlookup
    exact hlookup
  have hone := filterMap_eq_nil hproblem hid
  unfold Validator.functionProblem at hone
  simp only [hf, hblocks, hplans, Option.bind_eq_bind, Option.bind_some] at hone
  obtain ⟨_, hvalid⟩ := ok_of_errorOf hone
  refine ⟨f, blocks, hf, ?_, admitted_of_validate hblocks hvalid⟩
  have hlookup := lookup_filterMap_keyed
    (f := fun id => ((v.reachedFunctions entry).filterMap v.blockPlan).lookup id) id hid
  exact hlookup.trans hplans

end

theorem planned_of_validate
    (h : validate m source resolve registry displayTy target imports = .ok plan) :
    Planned m (validator m source resolve registry displayTy) plan := by
  unfold validate at h
  dsimp only at h
  split at h
  · cases h
  split at h
  · cases h
  rename_i hduplicates
  have hnodup := (duplicateFunctions_eq_nil (not_not.mp hduplicates)).1
  have hperm : (validator m source resolve registry displayTy).functions.Perm m.functions :=
    List.perm_insertionSort _ _
  have hunique : ((validator m source resolve registry displayTy).functions.map (·.id)).Nodup :=
    ((hperm.map _).nodup_iff).mpr hnodup
  have hgets : ∀ id, (validator m source resolve registry displayTy).get id = m.findFunction id :=
    find?_key_perm hunique hperm
  split at h
  · cases h
  rename_i entry hentry
  obtain ⟨⟨f, hf, hname, hid⟩, honly⟩ := findEntry_ok hentry
  have hfound := (get_eq_some hunique).mpr ⟨hf, hid⟩
  have hsome : ((validator m source resolve registry displayTy).get entry).isSome := by
    rw [hfound]
    rfl
  obtain ⟨rfl, ⟨f', hf', hresult⟩, hfunctions, hcycles, hadmitted⟩ := planFrom_ok hunique hsome h
  obtain ⟨hdistinct, hmem⟩ := reachedFunctions_spec hunique hsome
  rw [hfound] at hf'
  cases hf'
  constructor
  · exact hnodup
  · exact hgets
  · exact ⟨f, (hgets _).symm.trans hfound, hname, hresult⟩
  · exact fun g hg => honly g (hperm.mem_iff.mpr hg)
  · rw [hfunctions]
    exact sortItems_sorted hdistinct
  · intro id
    rw [hfunctions]
    exact mem_sortItems.trans (hmem id)
  · intro id hid'
    obtain ⟨g, blocks, hg, hplan, hadmit⟩ := hadmitted id hid'
    exact ⟨g, blocks, (hgets id).symm.trans hg, hplan, hadmit⟩
  · exact hcycles

end
end Napitia.Native

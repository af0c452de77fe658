import Napitia.Verify.Dominance
import Napitia.Verify.Refinement
import Napitia.Verify.RaiseSafety

/-!
# The case a projection names

Along a run of an accepted module, what is proven of a value's case is so of what the frame
holds under it: a switch has gone over the edge of the case its scrutinee holds, and no
instruction changes the case of what it leaves in place. A value is written again only where
nothing is proven of it, for a proof needs a switch on the value, and the value is defined on
every way to that switch.

All of this is about the slot where the value was loaded from one. What is proven of a slot
says nothing of a value loaded before the slot was last written.
-/
namespace Napitia.Verify
open Nir Interpreter

/-- The case a value holds, when it is of a variant. -/
def activeCase : Value → Option (ItemId × ℕ)
  | .variant item _ case _ => some (item, case)
  | _ => none

/-- What the frame has under a value is of the case that is proven of it, or was moved away. -/
def HoldsCase (values : Values) (fact : RefinementFact) : Prop :=
  ∀ v, values.lookup fact.1 = some v → v.isTombstone = true ∨ activeCase v = some fact.2

/-- The value whose case the next step looks at. -/
def examined (p : Point) : Option ValueId :=
  match p.instructions, p.terminator with
  | .value _ _ (.variantPayload base _ _ _) :: _, _ => some base
  | [], .switch scrutinee _ _ => some scrutinee
  | _, _ => none

/-- Where the next step looks at the case of a value that was loaded, the slot it was loaded
from still has a value of the same case. -/
def LoadsCurrent (p : Point) : Prop :=
  ∀ id slot v, examined p = some id → (loadOrigin p.ctx.function).lookup id = some slot →
    p.state.values.lookup id = some v → ∃ held, p.state.values.lookup slot = some held ∧
      held.isTombstone = v.isTombstone ∧ activeCase held = activeCase v

/-- A payload is only projected out of a value that holds the case the projection names.
What has been moved away holds none, and nothing is projected out of it. -/
def ProjectsActiveCase (p : Point) : Prop :=
  ∀ result ty base variant case index rest v,
    p.instructions = .value result ty (.variantPayload base variant case index) :: rest →
    p.state.values.lookup base = some v → v.isTombstone = false →
    activeCase v = some (variant, case)

/-- A module the verifier accepts. -/
structure CasesAccepted (m : Module) : Prop where
  checked : verifyModule m = []
  outcomes : ∀ f ∈ m.functions, verifyOutcomes m f = []
  dominance : ∀ f ∈ m.functions, ∃ order fuel, (∀ l, (order l).Perm l) ∧
    verifyDominance f order fuel = some []
  refinement : ∀ f ∈ m.functions, ∃ fuel, verifyPayloadRefinement f fuel = some []

section
variable {m : Module} {f : Function} {block b : BasicBlock} {id : BlockId} {left : List BlockId}
  {value slot : ValueId}

/-! ### Where a value is defined -/

theorem eq_of_filterMap_nodup {α β : Type} {g : α → Option β} {l : List α}
    (h : (l.filterMap g).Nodup) {x y : α} {z : β} (hx : x ∈ l) (hy : y ∈ l) (hgx : g x = some z)
    (hgy : g y = some z) : x = y := by
  induction l with
  | nil => cases hx
  | cons a l ih =>
    cases hga : g a with
    | none =>
      rw [List.filterMap_cons_none hga] at h
      have hne : ∀ w, g w = some z → w ≠ a := by
        rintro w hw rfl
        rw [hga] at hw
        cases hw
      exact ih h ((List.mem_cons.mp hx).resolve_left (hne x hgx))
        ((List.mem_cons.mp hy).resolve_left (hne y hgy))
    | some c =>
      rw [List.filterMap_cons_some hga, List.nodup_cons] at h
      have hlater : ∀ w ∈ l, g w = some z → c ≠ z := fun w hw hgw heq =>
        h.1 (List.mem_filterMap.mpr ⟨w, hw, heq ▸ hgw⟩)
      rcases List.mem_cons.mp hx with hxa | hxl
      · rw [← hxa, hgx] at hga
        rcases List.mem_cons.mp hy with hya | hyl
        · rw [hxa, hya]
        · exact absurd (Option.some.inj hga).symm (hlater y hyl hgy)
      · rcases List.mem_cons.mp hy with hya | hyl
        · rw [← hya, hgy] at hga
          exact absurd (Option.some.inj hga).symm (hlater x hxl hgx)
        · exact ih h.2 hxl hyl

/-- The value an instruction defines. -/
def resultOf : Instruction → Option ValueId
  | .value result _ _ => some result
  | _ => none

theorem Sound.results (h : Sound m f) :
    ((f.blocks.flatMap (·.instructions)).filterMap resultOf).Nodup ∧
      ∀ i ∈ f.blocks.flatMap (·.instructions), ∀ result, resultOf i = some result →
        result ∉ paramValues f := by
  have hnodup := h.values
  have hnames : (definitions f).map (·.1) =
      paramValues f ++ (f.blocks.flatMap (·.instructions)).filterMap resultOf := by
    unfold definitions paramValues
    rw [List.map_append, List.map_map, List.map_filterMap]
    congr 1
    apply List.filterMap_congr
    intro i _
    cases i <;> rfl
  rw [hnames, List.nodup_append] at hnodup
  refine ⟨hnodup.2.1, fun i hi result hresult hparam => ?_⟩
  exact hnodup.2.2 result hparam result (List.mem_filterMap.mpr ⟨i, hi, hresult⟩) rfl

theorem mem_instructions {i : Instruction} (hblock : block ∈ f.blocks)
    (hi : i ∈ block.instructions) : i ∈ f.blocks.flatMap (·.instructions) :=
  List.mem_flatMap.mpr ⟨block, hblock, hi⟩

theorem Sound.block_unique (h : Sound m f) {i i' : Instruction} (hblock : block ∈ f.blocks)
    (hb : b ∈ f.blocks) (hi : i ∈ block.instructions) (hi' : i' ∈ b.instructions)
    (hresult : resultOf i = some value) (hresult' : resultOf i' = some value) : block = b := by
  have hnodup := h.results.1
  rw [List.filterMap_flatMap, List.nodup_flatMap] at hnodup
  by_contra hne
  have hsymm : Std.Symm (Function.onFun List.Disjoint
      fun c : BasicBlock => c.instructions.filterMap resultOf) := ⟨fun _ _ hd => hd.symm⟩
  have hdisjoint := hnodup.2.forall hblock hb hne
  exact hdisjoint (List.mem_filterMap.mpr ⟨i, hi, hresult⟩)
    (List.mem_filterMap.mpr ⟨i', hi', hresult'⟩)

theorem Sound.definitionSite (h : Sound m f) {i : Instruction} (hblock : block ∈ f.blocks)
    (hi : i ∈ block.instructions) (hresult : resultOf i = some value) :
    ∃ index, definitionSite f value = some (block.id, index) := by
  obtain ⟨index, hsite⟩ := mem_sites hblock hi
  cases i with
  | value result ty kind =>
    obtain rfl : result = value := Option.some.inj hresult
    cases hfound : Verify.definitionSite f result with
    | none =>
      have hnot := List.find?_eq_none.mp (Option.map_eq_none_iff.mp hfound) _ hsite
      simp at hnot
    | some found =>
      obtain ⟨⟨id, k, j⟩, hfind, rfl⟩ := Option.map_eq_some_iff.mp hfound
      obtain ⟨c, hc, hmem⟩ := List.mem_flatMap.mp (List.mem_of_find?_eq_some hfind)
      obtain ⟨⟨j', k'⟩, hzip, heq⟩ := List.mem_map.mp hmem
      cases heq
      have hj : j ∈ c.instructions := List.fst_mem_of_mem_zipIdx hzip
      have hdefines := List.find?_some hfind
      have hresult' : resultOf j = some result := by
        cases j with
        | value other ty kind =>
          obtain rfl : other = result := by simpa using hdefines
          rfl
        | _ => cases hdefines
      obtain rfl := h.block_unique hblock hc hi hj hresult hresult'
      exact ⟨k, rfl⟩
  | _ => cases hresult

theorem Sound.findBlock (h : Sound m f) (hblock : block ∈ f.blocks) :
    f.findBlock block.id = some block := by
  obtain ⟨b, hb⟩ := Option.isSome_iff_exists.mp
    (findBlock_isSome (List.mem_map_of_mem (f := (·.id)) hblock))
  rw [hb, List.inj_on_of_nodup_map h.blocks (mem_of_findBlock hb) hblock (id_of_findBlock hb)]

theorem load_of_origin (h : (loadOrigin f).lookup value = some slot) :
    ∃ b ∈ f.blocks, ∃ ty, .value value ty (.load slot) ∈ b.instructions := by
  rcases AList.mem_of_lookup_foldl h with hmem | hnone
  · obtain ⟨i, hi, hload⟩ := List.mem_filterMap.mp hmem
    obtain ⟨b, hb, hi⟩ := List.mem_flatMap.mp hi
    split at hload
    · cases hload
      exact ⟨b, hb, _, hi⟩
    · cases hload
  · simp at hnone

theorem canonicalValue_of_slot (h : Sound m f) (hslot : slot ∈ allocSlots f) :
    canonicalValue f slot = slot := by
  obtain ⟨i, hi, halloc⟩ := List.mem_filterMap.mp hslot
  have hnone : (loadOrigin f).lookup slot = none := by
    cases horigin : (loadOrigin f).lookup slot with
    | none => rfl
    | some other =>
      obtain ⟨b, hb, ty, hload⟩ := load_of_origin horigin
      unfold allocated at halloc
      split at halloc
      · cases halloc
        cases eq_of_filterMap_nodup (z := slot) h.results.1 hi (mem_instructions hb hload) rfl rfl
      · cases halloc
  unfold canonicalValue
  rw [hnone]
  rfl

/-! ### What a proof rests on -/

theorem use_of_terminator (hblock : block ∈ f.blocks)
    (hvalue : value ∈ usedByTerminator block.terminator) :
    ⟨value, block.id, block.instructions.length⟩ ∈ uses f :=
  List.mem_flatMap.mpr ⟨block, hblock,
    List.mem_append_right _ (List.mem_map.mpr ⟨value, hvalue, rfl⟩)⟩

theorem use_of_instruction {i : Instruction} (hblock : block ∈ f.blocks)
    (hi : i ∈ block.instructions) (hvalue : value ∈ usedBy i) :
    ∃ index, ⟨value, block.id, index⟩ ∈ uses f := by
  obtain ⟨index, hindex⟩ := List.getElem?_of_mem hi
  refine ⟨index, List.mem_flatMap.mpr ⟨block, hblock, List.mem_append_left _ ?_⟩⟩
  exact List.mem_flatMap.mpr ⟨(i, index), List.mk_mem_zipIdx_iff_getElem?.mpr hindex,
    List.mem_map.mpr ⟨value, hvalue, rfl⟩⟩

theorem CasesAccepted.definition_on_way (h : CasesAccepted m) (hf : f ∈ m.functions) {use : Use}
    (huse : use ∈ uses f) (harrives : Arrives f use.block left) {i : Instruction}
    (hblock : block ∈ f.blocks) (hi : i ∈ block.instructions)
    (hresult : resultOf i = some use.value) : block.id ∈ use.block :: left := by
  have hsound := sound_of_accepted h.checked hf
  obtain ⟨order, fuel, horder, hsilent⟩ := h.dominance f hf
  obtain ⟨index, hsite⟩ := hsound.definitionSite hblock hi hresult
  have hall := (problems_spare_iff horder hsilent huse harrives (.inr (by simp [hsite]))).mp
    (by simp)
  rcases hall left harrives with hparam | ⟨site, hsite', hbefore⟩
  · exact absurd hparam (hsound.results.2 i (mem_instructions hblock hi) _ hresult)
  · rw [hsite] at hsite'
    cases hsite'
    rcases hbefore with hleft | ⟨hsame, -⟩
    · exact List.mem_cons_of_mem _ hleft
    · exact hsame ▸ List.mem_cons_self

theorem edge_of_flowsTo (h : Sound m f) {n : BlockId} (hflows : id ∈ flowsTo f n) :
    ∃ b next edge, f.findBlock b.id = some b ∧ b.id = n ∧ edge ∈ refinementEdges f b.terminator ∧
      edge.1 = id ∧ f.findBlock id = some next := by
  obtain ⟨htarget, hid⟩ := List.mem_filter.mp hflows
  obtain ⟨next, hnext⟩ := Option.isSome_iff_exists.mp (findBlock_isSome (of_decide_eq_true hid))
  unfold targetsOf at htarget
  cases hfound : blockById f n with
  | none =>
    rw [hfound] at htarget
    cases htarget
  | some b =>
    rw [hfound] at htarget
    have hb : b ∈ f.blocks := List.mem_reverse.mp (List.mem_of_find?_eq_some hfound)
    have hn : b.id = n := by simpa using List.find?_some hfound
    have htarget : id ∈ (terminatorEdges b.terminator).map (·.1) := htarget
    rw [← refinementEdges_targets (f := f)] at htarget
    obtain ⟨edge, hedge, hid⟩ := List.mem_map.mp htarget
    exact ⟨b, next, edge, h.findBlock hb, hn, hedge, hid, hnext⟩

theorem flowsTo_of_edge (h : Sound m f) {next : BasicBlock} {edge : BlockId × RefinementFacts}
    (hblock : block ∈ f.blocks) (hedge : edge ∈ refinementEdges f block.terminator)
    (hnext : f.findBlock edge.1 = some next) : edge.1 ∈ flowsTo f block.id := by
  refine List.mem_filter.mpr ⟨?_, decide_eq_true (List.mem_map.mpr
    ⟨next, mem_of_findBlock hnext, id_of_findBlock hnext⟩)⟩
  unfold targetsOf blockById
  rw [find?_reverse_of_nodup h.blocks hblock]
  have hmem := List.mem_map_of_mem (f := (·.1)) hedge
  rwa [refinementEdges_targets] at hmem

theorem switch_of_generated {terminator : Terminator} {edge : BlockId × RefinementFacts}
    {fact : RefinementFact} (hedge : edge ∈ refinementEdges f terminator) (hfact : fact ∈ edge.2) :
    ∃ scrutinee cases, terminator = .switch scrutinee fact.2.1 cases ∧
      canonicalValue f scrutinee = fact.1 ∧ cases[fact.2.2]? = some edge.1 := by
  have hnone : ∀ {target : BlockId}, edge ≠ (target, ∅) := by
    rintro target rfl
    cases hfact
  cases terminator with
  | switch scrutinee variant cases =>
    obtain ⟨⟨target, index⟩, hmem, rfl⟩ := List.mem_map.mp hedge
    obtain rfl := Finset.mem_singleton.mp hfact
    exact ⟨scrutinee, cases, rfl, rfl, List.mk_mem_zipIdx_iff_getElem?.mp hmem⟩
  | branch target => exact absurd (List.mem_singleton.mp hedge) hnone
  | condBranch condition thenBlock elseBlock =>
    rcases List.mem_cons.mp hedge with heq | hedge
    · exact absurd heq hnone
    · exact absurd (List.mem_singleton.mp hedge) hnone
  | invoke callee typeArgs args evidence okSlot okTarget errTargets =>
    rcases List.mem_cons.mp hedge with heq | hedge
    · exact absurd heq hnone
    · obtain ⟨t, -, heq⟩ := List.mem_map.mp hedge
      exact absurd heq.symm hnone
  | ret value | raise value => cases hedge

section
variable {reachable : List BlockId} {guaranteed : AList fun _ : BlockId => RefinementFacts}
  {fact : RefinementFact}

theorem CasesSettled.reachable_of_arrives (h : CasesSettled f reachable guaranteed)
    (hsound : Sound m f) (harrives : Arrives f id left) : id ∈ reachable := by
  induction left generalizing id with
  | nil =>
    obtain ⟨rfl, -⟩ | ⟨_, _, hnil, -⟩ := harrives.head_cases
    · exact h.entry_mem
    · cases hnil
  | cons n left ih =>
    obtain ⟨-, hnil⟩ | ⟨_, _, heq, hearlier, hflows⟩ := harrives.head_cases
    · cases hnil
    · cases heq
      obtain ⟨b, next, edge, hb, rfl, hedge, rfl, -⟩ := edge_of_flowsTo hsound hflows
      exact h.closed _ (ih hearlier) _
        (successors_of_refinementEdge (mem_of_findBlock hb) hedge)

theorem CasesSettled.switch_on_way (h : CasesSettled f reachable guaranteed) (hsound : Sound m f)
    (harrives : Arrives f id left) (hfact : fact ∈ onEntry guaranteed id) :
    ∃ b scrutinee cases, b.id ∈ left ∧ b ∈ f.blocks ∧
      b.terminator = .switch scrutinee fact.2.1 cases ∧ canonicalValue f scrutinee = fact.1 := by
  induction left generalizing id with
  | nil =>
    obtain ⟨rfl, -⟩ | ⟨_, _, hnil, -⟩ := harrives.head_cases
    · rw [h.start] at hfact
      cases hfact
    · cases hnil
  | cons n left ih =>
    obtain ⟨-, hnil⟩ | ⟨_, _, heq, hearlier, hflows⟩ := harrives.head_cases
    · cases hnil
    · cases heq
      obtain ⟨b, next, edge, hb, rfl, hedge, rfl, hnext⟩ := edge_of_flowsTo hsound hflows
      have hreach := h.reachable_of_arrives hsound hearlier
      rcases Finset.mem_union.mp (h.edge_subset b next edge hb hreach hedge hnext hfact) with
        hkept | hgenerated
      · obtain ⟨c, scrutinee, cases, hmem, hc⟩ :=
          ih hearlier (mem_foldl_applyKill (mem_killThrough hkept).1)
        exact ⟨c, scrutinee, cases, List.mem_cons_of_mem _ hmem, hc⟩
      · obtain ⟨scrutinee, cases, hswitch, hroot, -⟩ := switch_of_generated hedge hgenerated
        exact ⟨b, scrutinee, cases, List.mem_cons_self, mem_of_findBlock hb, hswitch, hroot⟩

/-- Nothing is proven of a value at the start of the block that defines it: the first way
there has been at no switch that could have used the value. -/
theorem CasesAccepted.unproven_before (haccepted : CasesAccepted m) (hf : f ∈ m.functions)
    (hsettled : CasesSettled f reachable guaranteed) (hblock : block ∈ f.blocks)
    {i : Instruction} (hi : i ∈ block.instructions) (hresult : resultOf i = some fact.1)
    (harrives : Arrives f block.id left) : fact ∉ onEntry guaranteed block.id := by
  intro hfact
  have hsound := sound_of_accepted haccepted.checked hf
  obtain ⟨first, hfirst, hnew⟩ := harrives.first
  obtain ⟨b, scrutinee, cases, hleft, hb, hswitch, hroot⟩ :=
    hsettled.switch_on_way hsound hfirst hfact
  have hway : ∀ {n}, n ∈ first → ∃ earlier, Arrives f n earlier ∧ ∀ k ∈ n :: earlier, k ∈ first := by
    intro n hn
    obtain ⟨between, earlier, heq⟩ := List.append_of_mem hn
    have hsuffix : n :: earlier <:+ first := heq ▸ List.suffix_append between _
    exact ⟨earlier, hfirst.suffix (hsuffix.trans (List.suffix_cons _ _)),
      fun k hk => hsuffix.subset hk⟩
  obtain ⟨earlier, hearlier, hsub⟩ := hway hleft
  have huse : ⟨scrutinee, b.id, b.instructions.length⟩ ∈ uses f :=
    use_of_terminator hb (by simp [hswitch, usedByTerminator])
  unfold canonicalValue at hroot
  cases horigin : (loadOrigin f).lookup scrutinee with
  | none =>
    rw [horigin] at hroot
    obtain rfl : scrutinee = fact.1 := hroot
    exact hnew (hsub _ (haccepted.definition_on_way hf huse hearlier hblock hi hresult))
  | some slot =>
    -- The scrutinee was loaded, further up, and the load uses the slot.
    rw [horigin] at hroot
    obtain rfl : slot = fact.1 := hroot
    obtain ⟨c, hc, ty, hload⟩ := load_of_origin horigin
    have hcleft := hsub _ (haccepted.definition_on_way hf huse hearlier hc hload rfl)
    obtain ⟨before, hbefore, hsub'⟩ := hway hcleft
    obtain ⟨index, huse'⟩ : ∃ index, ⟨fact.1, c.id, index⟩ ∈ uses f :=
      use_of_instruction hc hload (by simp [usedBy, operandsOf])
    exact hnew (hsub' _ (haccepted.definition_on_way hf huse' hbefore hblock hi hresult))

end

/-! ### What a step does to it -/

section
variable {fpu : FloatUnit} {call : Call} {ctx : FrameContext} {st st' : FrameState}
  {values values' : Values} {fact : RefinementFact}

theorem activeCase_of_reshapes {v v' : Value} (h : Reshapes v v') :
    activeCase v' = activeCase v ∧ v'.isTombstone = v.isTombstone := by
  cases h <;> exact ⟨rfl, rfl⟩

theorem HoldsCase.retains {written : Option ValueId} (h : HoldsCase values fact)
    (hretains : Retains written values values') (hne : written ≠ some fact.1) :
    HoldsCase values' fact := by
  intro v' hv'
  rcases hretains fact.1 hne v' hv' with htomb | ⟨v, hv, hreshapes⟩
  · exact .inl htomb
  · obtain ⟨hcase, htomb⟩ := activeCase_of_reshapes hreshapes
    rw [hcase, htomb]
    exact h v hv

theorem HoldsCase.insert (h : HoldsCase values fact) {v : Value} (hne : slot ≠ fact.1) :
    HoldsCase (values.insert slot v) fact :=
  h.retains ((Retains.refl none values).insert slot v) fun heq => hne (Option.some.inj heq)

theorem holdsCase_instruction {reachable : List BlockId}
    {guaranteed : AList fun _ : BlockId => RefinementFacts} (haccepted : CasesAccepted m)
    (hf : ctx.function ∈ m.functions) (hsettled : CasesSettled ctx.function reachable guaranteed)
    (hblock : block ∈ ctx.function.blocks) (harrives : Arrives ctx.function block.id left)
    {first : List Instruction} {i : Instruction} (hi : i ∈ block.instructions)
    (hheld : ∀ fact ∈ first.foldl (applyKill ctx.function) (onEntry guaranteed block.id),
      HoldsCase st.values fact)
    (h : execInstruction m fpu call ctx i st = .ok ⟨⟩ st')
    (hfact : fact ∈ (first ++ [i]).foldl (applyKill ctx.function) (onEntry guaranteed block.id)) :
    HoldsCase st'.values fact := by
  rw [List.foldl_append] at hfact
  obtain ⟨hbefore, hkept⟩ := mem_applyKill hfact
  refine (hheld fact hbefore).retains (instruction_retains h) ?_
  intro htarget
  cases i with
  | value result ty kind =>
    exact haccepted.unproven_before hf hsettled hblock hi htarget harrives
      (mem_foldl_applyKill hbefore)
  | store slot value mode =>
    obtain rfl : slot = fact.1 := Option.some.inj htarget
    have hnil := (verifyOutcomes_eq_nil (haccepted.outcomes _ hf) hblock).1 _ hi
    have hroot := canonicalValue_of_slot (sound_of_accepted haccepted.checked hf)
      (verifyStore_slot hnil)
    exact hkept (congrArg some hroot)
  | _ => cases htarget

theorem slots_of_terminator (h : verifyOutcomes m f = []) (hblock : block ∈ f.blocks)
    (hslot : slot ∈ terminatorKills block.terminator) : slot ∈ allocSlots f := by
  have hnil := (verifyOutcomes_eq_nil h hblock).2
  generalize block.terminator = terminator at hslot hnil
  cases terminator with
  | invoke callee typeArgs args evidence okSlot okTarget errTargets =>
    obtain ⟨hok, herr⟩ := verifyInvokeOutcome_slots hnil
    rcases List.mem_cons.mp hslot with rfl | hslot
    · exact hok
    · obtain ⟨t, ht, rfl⟩ := List.mem_map.mp hslot
      exact herr t ht
  | _ => cases hslot

theorem switchTarget_eq_ok {variant : ItemId} {cases : List BlockId} {v : Value}
    {target : BlockId} (h : switchTarget variant cases v = .ok target) :
    ∃ case, activeCase v = some (variant, case) ∧ v.isTombstone = false ∧
      cases[case]? = some target := by
  cases v with
  | variant item typeArgs case payload =>
    simp only [switchTarget] at h
    split at h
    · exact absurd h Except.throw_ne_ok
    · rename_i hitem
      split at h
      · rename_i target' htarget
        cases h
        obtain rfl : item = variant := not_not.mp hitem
        exact ⟨case, rfl, rfl, htarget⟩
      · exact absurd h Except.throw_ne_ok
  | _ => exact absurd h Except.throw_ne_ok

/-- A frame goes on over an edge of its terminator, which proves what the scrutinee holds and
leaves everything but the slots it writes as it was. -/
theorem edge_of_goto {terminator : Terminator} {next : BlockId}
    (h : execTerminator m call ctx terminator st = .ok (.goto next) st') :
    ∃ edge ∈ refinementEdges f terminator, edge.1 = next ∧
      (∀ fact ∈ edge.2, ∃ scrutinee variant cases v, terminator = .switch scrutinee variant cases ∧
        canonicalValue f scrutinee = fact.1 ∧ st.values.lookup scrutinee = some v ∧
        v.isTombstone = false ∧ activeCase v = some fact.2) ∧
      (st'.values = st.values ∨
        ∃ slot ∈ terminatorKills terminator, ∃ v, st'.values = st.values.insert slot v) := by
  cases terminator with
  | branch target =>
    cases h
    exact ⟨_, List.mem_singleton_self _, rfl, by simp, .inl rfl⟩
  | condBranch condition thenBlock elseBlock =>
    obtain ⟨v, -, h⟩ := asked_eq_ok.mp (EStateM.get_bind_eq_ok.mp h)
    obtain ⟨target, htarget, h⟩ := asked_eq_ok.mp h
    cases h
    cases v with
    | bool b =>
      cases b with
      | true =>
        cases htarget
        exact ⟨(_, ∅), List.mem_cons_self, rfl, by simp, .inl rfl⟩
      | false =>
        cases htarget
        exact ⟨(_, ∅), List.mem_cons_of_mem _ (List.mem_singleton_self _), rfl, by simp, .inl rfl⟩
    | _ => exact absurd htarget Except.throw_ne_ok
  | switch scrutinee variant cases =>
    obtain ⟨v, hread, h⟩ := asked_eq_ok.mp (EStateM.get_bind_eq_ok.mp h)
    obtain ⟨target, htarget, h⟩ := asked_eq_ok.mp h
    cases h
    obtain ⟨case, hcase, hlive, hindex⟩ := switchTarget_eq_ok htarget
    refine ⟨(next, {(canonicalValue f scrutinee, variant, case)}), ?_, rfl, ?_, .inl rfl⟩
    · exact List.mem_map.mpr ⟨(next, case), List.mk_mem_zipIdx_iff_getElem?.mpr hindex, rfl⟩
    · intro fact hfact
      obtain rfl := Finset.mem_singleton.mp hfact
      exact ⟨scrutinee, variant, cases, v, rfl, rfl, read_eq_ok.mp hread, hlive, hcase⟩
  | invoke callee typeArgs args evidence okSlot okTarget errTargets =>
    obtain ⟨_, _, _, slot, v, target, -, -, hresume, hnext, rfl⟩ := execInvoke_eq_ok h
    cases hnext
    rcases resumeInvoke_edge hresume with ⟨rfl, rfl⟩ | ⟨t, ht, rfl, rfl⟩
    · exact ⟨(_, ∅), List.mem_cons_self, rfl, by simp, .inr ⟨_, List.mem_cons_self, v, rfl⟩⟩
    · exact ⟨(t.target, ∅), List.mem_cons_of_mem _ (List.mem_map.mpr ⟨t, ht, rfl⟩), rfl, by simp,
        .inr ⟨t.slot, List.mem_cons_of_mem _ (List.mem_map.mpr ⟨t, ht, rfl⟩), v, rfl⟩⟩
  | ret value | raise value =>
    obtain ⟨_, _, -, h⟩ := EStateM.bind_eq_ok.mp h
    obtain ⟨_, _, -, h⟩ := EStateM.bind_eq_ok.mp h
    cases h

end

end

/-! ### Along a run -/

/-- A point has been come to over the blocks of its function, with this much of its block
run, and what is proven there is held. -/
structure CasesHeld (guaranteed : AList fun _ : BlockId => RefinementFacts) (p : Point)
    (block : BasicBlock) (first : List Instruction) : Prop where
  found : p.ctx.function.findBlock block.id = some block
  instructions : block.instructions = first ++ p.instructions
  terminator : p.terminator = block.terminator
  arrives : ∃ left, Arrives p.ctx.function block.id left
  holds : ∀ fact ∈ first.foldl (applyKill p.ctx.function) (onEntry guaranteed block.id),
    HoldsCase p.state.values fact

section
variable {m : Module} {fpu : FloatUnit} {request : CallRequest} {s : InterpreterState} {p : Point}

theorem casesHeld_jump {reachable : List BlockId} {call : Call} {ctx : FrameContext}
    {st st' : FrameState} {terminator : Terminator} {next : BlockId} {block nextBlock : BasicBlock}
    {guaranteed : AList fun _ : BlockId => RefinementFacts} (haccepted : CasesAccepted m)
    (hf : ctx.function ∈ m.functions) (hsettled : CasesSettled ctx.function reachable guaranteed)
    (hcurrent : LoadsCurrent ⟨ctx, st, [], terminator⟩) {first : List Instruction}
    (hheld : CasesHeld guaranteed ⟨ctx, st, [], terminator⟩ block first)
    (h : execTerminator m call ctx terminator st = .ok (.goto next) st')
    (hnext : ctx.function.findBlock next = some nextBlock) :
    CasesHeld guaranteed ⟨ctx, st', nextBlock.instructions, nextBlock.terminator⟩ nextBlock [] := by
  have hsound := sound_of_accepted haccepted.checked hf
  obtain ⟨edge, hedge, rfl, hproves, hvalues⟩ := edge_of_goto (f := ctx.function) h
  have hterm : terminator = block.terminator := hheld.terminator
  have hblock := mem_of_findBlock hheld.found
  rw [hterm] at hedge
  obtain ⟨left, harrives⟩ := hheld.arrives
  have hid := id_of_findBlock hnext
  refine ⟨hid ▸ hnext, rfl, rfl, ⟨block.id :: left, ?_⟩, fun fact hfact => ?_⟩
  · rw [hid]
    exact .step harrives (flowsTo_of_edge hsound hblock hedge hnext)
  · rw [hid] at hfact
    have hreach := hsettled.reachable_of_arrives hsound harrives
    have hsub := hsettled.edge_subset block nextBlock edge hheld.found hreach hedge hnext
    rcases Finset.mem_union.mp (hsub hfact) with hkept | hgenerated
    · obtain ⟨hbehind, hspared⟩ := mem_killThrough hkept
      have hinstructions : block.instructions = first := by
        simpa using hheld.instructions
      rw [hinstructions] at hbehind
      have hholds := hheld.holds fact hbehind
      rcases hvalues with heq | ⟨slot, hslot, v, heq⟩
      · rw [heq]
        exact hholds
      · rw [heq]
        have hroot := canonicalValue_of_slot hsound
          (slots_of_terminator (haccepted.outcomes _ hf) hblock (hterm ▸ hslot))
        exact hholds.insert fun hsame => hspared slot (hterm ▸ hslot) (hroot.trans hsame)
    · obtain ⟨scrutinee, variant, cases, v, rfl, hroot, hv, hlive, hcase⟩ := hproves fact hgenerated
      have hsame : st'.values = st.values := by
        rcases hvalues with heq | ⟨slot, hslot, -⟩
        · exact heq
        · cases hslot
      intro w hw
      rw [hsame] at hw
      unfold canonicalValue at hroot
      cases horigin : (loadOrigin ctx.function).lookup scrutinee with
      | none =>
        rw [horigin] at hroot
        obtain rfl : scrutinee = fact.1 := hroot
        rw [hv] at hw
        cases hw
        exact .inr hcase
      | some slot =>
        rw [horigin] at hroot
        obtain rfl : slot = fact.1 := hroot
        obtain ⟨held, hheld', -, hactive⟩ := hcurrent scrutinee fact.1 v rfl horigin hv
        rw [hheld'] at hw
        cases hw
        exact .inr (hactive.trans hcase)

theorem casesHeld_of_reached (haccepted : CasesAccepted m) (hf : request.function ∈ m.functions)
    (hp : Reached m fpu request s p)
    (hcurrent : ∀ q, Reached m fpu request s q → LoadsCurrent q) :
    p.ctx.function ∈ m.functions ∧ ∀ reachable guaranteed,
      CasesSettled p.ctx.function reachable guaranteed →
      ∃ block first, CasesHeld guaranteed p block first := by
  induction hp with
  | @enter request s s' ctx values block _ hbind hblock =>
    obtain ⟨_, _, _, -, -, -, hctx, -⟩ := bindParameters_eq_ok hbind
    refine ⟨by simpa [hctx] using hf, fun reachable guaranteed hsettled => ⟨block, [], ?_⟩⟩
    have hid := id_of_findBlock hblock
    refine ⟨hid ▸ hblock, rfl, rfl, ⟨[], hid ▸ Dominance.Walk.start⟩, fun fact hfact => ?_⟩
    rw [hid, List.foldl_nil] at hfact
    exact absurd (hsettled.start ▸ hfact) (Finset.notMem_empty fact)
  | @instruction request s n ctx st st' i rest terminator _ hexec ih =>
    obtain ⟨hmem, hheld⟩ := ih hf hcurrent
    refine ⟨hmem, fun reachable guaranteed hsettled => ?_⟩
    obtain ⟨block, first, hblock⟩ := hheld reachable guaranteed hsettled
    obtain ⟨left, harrives⟩ := hblock.arrives
    refine ⟨block, first ++ [i], hblock.found, ?_, hblock.terminator, hblock.arrives, ?_⟩
    · rw [hblock.instructions, List.append_assoc]
      rfl
    · intro fact hfact
      have hi : i ∈ block.instructions := by simp [hblock.instructions]
      exact holdsCase_instruction haccepted hmem hsettled (mem_of_findBlock hblock.found) harrives
        hi hblock.holds hexec hfact
  | jump hreached hexec hnext ih =>
    obtain ⟨hmem, hheld⟩ := ih hf hcurrent
    refine ⟨hmem, fun reachable guaranteed hsettled => ?_⟩
    obtain ⟨block, first, hblock⟩ := hheld reachable guaranteed hsettled
    exact ⟨_, [], casesHeld_jump haccepted hmem hsettled (hcurrent _ hreached) hblock hexec hnext⟩
  | call hreached hrequests _ _ ih =>
    exact ih (requests_function_mem hrequests) fun q hq => hcurrent q (.call hreached hrequests hq)

/-- Along every run of an accepted module that only looks at the case of a loaded value while
the slot has a value of the same case, a payload is projected out of the case it names. -/
theorem projects_active_case {request : CallRequest} {s : InterpreterState}
    (haccepted : CasesAccepted m) (hf : request.function ∈ m.functions)
    (hcurrent : ∀ p, Reached m fpu request s p → LoadsCurrent p) :
    ∀ p, Reached m fpu request s p → ProjectsActiveCase p := by
  intro p hp result ty base variant case index rest v hinstructions hv hlive
  obtain ⟨hmem, hheld⟩ := casesHeld_of_reached haccepted hf hp hcurrent
  obtain ⟨fuel, hsilent⟩ := haccepted.refinement _ hmem
  obtain ⟨guaranteed, hguaranteed, hreports⟩ := Option.bind_eq_some_iff.mp hsilent
  obtain ⟨entryBlock, hentry⟩ := entry_of_accepted haccepted.checked hmem
  obtain ⟨reachable, hsettled⟩ := casesSettled_of_caseRefinements hentry hguaranteed
  obtain ⟨block, first, hblock⟩ := hheld reachable guaranteed hsettled
  have hnone := List.flatMap_eq_nil_iff.mp (Option.some.inj hreports) block
    (mem_of_findBlock hblock.found)
  rw [hblock.instructions, hinstructions] at hnone
  have hproven := proves_of_checkNamedCase (checkNamedCases_eq_nil hnone) rfl
  have hholds := hblock.holds _ (of_decide_eq_true hproven)
  have hcase : v.isTombstone = true ∨ activeCase v = some (variant, case) := by
    unfold canonicalValue at hholds
    cases horigin : (loadOrigin p.ctx.function).lookup base with
    | none =>
      rw [horigin] at hholds
      exact hholds v hv
    | some slot =>
      rw [horigin] at hholds
      have hexamined : examined p = some base := by
        unfold examined
        rw [hinstructions]
      obtain ⟨held, hheld', htomb, hactive⟩ := hcurrent p hp base slot v hexamined horigin hv
      rw [← htomb, ← hactive]
      exact hholds held hheld'
  exact hcase.resolve_left (by simp [hlive])

/-- `bb0` stores case 0 of a variant, loads it and switches on what it loaded, and `bb1`
projects the payload out of that. -/
def loadedSwitch : Function where
  id := ⟨0⟩
  name := ⟨0⟩
  typeParams := []
  requirements := []
  params := []
  returnType := .i64
  raises := []
  blocks := [⟨⟨0⟩, [.value ⟨0⟩ (.named ⟨1⟩) .alloc, .value ⟨1⟩ .i64 (.const (.int 1)),
      .value ⟨2⟩ (.named ⟨1⟩) (.variantCreate ⟨1⟩ 0 [] [⟨1⟩]), .store ⟨0⟩ ⟨2⟩ .observe,
      .value ⟨3⟩ (.named ⟨1⟩) (.load ⟨0⟩)], .switch ⟨3⟩ ⟨1⟩ [⟨1⟩, ⟨2⟩]⟩,
    ⟨⟨1⟩, [.value ⟨4⟩ .i64 (.variantPayload ⟨3⟩ ⟨1⟩ 0 0)], .ret (some ⟨4⟩)⟩,
    ⟨⟨2⟩, [], .ret (some ⟨1⟩)⟩]

/-- One function over a variant of two cases. -/
def switchModule (function : Function) : Module :=
  { functions := [function]
    variants := [(⟨1⟩, ⟨⟨1⟩, [], [⟨⟨2⟩, [.i64]⟩, ⟨⟨3⟩, [.i64]⟩]⟩)] }

theorem switchModule_accepted {f : Function} (hchecked : verifyModule (switchModule f) = [])
    (houtcomes : verifyOutcomes (switchModule f) f = [])
    (hdominance : verifyDominance f id 20 = some [])
    (hrefinement : verifyPayloadRefinement f 20 = some []) : CasesAccepted (switchModule f) := by
  have honly : ∀ g ∈ (switchModule f).functions, g = f := fun g hg => List.mem_singleton.mp hg
  refine ⟨hchecked, fun g hg => ?_, fun g hg => ?_, fun g hg => ?_⟩
  · rw [honly g hg]
    exact houtcomes
  · rw [honly g hg]
    exact ⟨id, 20, fun l => .refl l, hdominance⟩
  · rw [honly g hg]
    exact ⟨20, hrefinement⟩

/-- The frame of the function, which has no parameters. -/
def switchFrame (f : Function) : FrameContext := ⟨f, [], ∅, [], loadOriginOf f⟩

theorem reached_switch {f : Function} {is : List Instruction} {t : Terminator} {values : Values}
    (hbind : bindParameters (switchModule f) ⟨f, [], [], []⟩ (InterpreterState.enter {}) =
      .ok (switchFrame f, ∅) { callDepth := 1 })
    (hblock : f.findBlock ⟨0⟩ = some ⟨⟨0⟩, is, t⟩)
    (hrun : is.forM (execInstruction (switchModule f) idleUnit
      (callFunction (switchModule f) idleUnit 0) (switchFrame f)) ⟨{ callDepth := 1 }, ∅, []⟩ =
        .ok ⟨⟩ ⟨{ callDepth := 1 }, values, []⟩) :
    Reached (switchModule f) idleUnit ⟨f, [], [], []⟩ {}
      ⟨switchFrame f, ⟨{ callDepth := 1 }, values, []⟩, [], t⟩ := by
  have henter : Reached (switchModule f) idleUnit ⟨f, [], [], []⟩ {}
      ⟨switchFrame f, ⟨{ callDepth := 1 }, ∅, []⟩, is ++ [], t⟩ := by
    rw [List.append_nil]
    exact .enter (by decide) hbind hblock
  exact henter.instructions hrun

/-- What its instructions write, one after the other. -/
def loadedWrites : List (ValueId × Value) :=
  [(⟨0⟩, .unit), (⟨1⟩, .int 1), (⟨2⟩, .variant ⟨1⟩ [] 0 [.int 1]),
    (⟨0⟩, .variant ⟨1⟩ [] 0 [.int 1]), (⟨3⟩, .variant ⟨1⟩ [] 0 [.int 1]), (⟨4⟩, .int 1)]

def loadedValues (n : ℕ) : Values :=
  (loadedWrites.take n).foldl (fun values write => values.insert write.1 write.2) ∅

/-- A point with so many instructions behind it. -/
def loadedPoint (n : ℕ) (instructions : List Instruction) (terminator : Terminator) : Point :=
  ⟨switchFrame loadedSwitch, ⟨{ callDepth := 1 }, loadedValues n, []⟩, instructions, terminator⟩

/-- The points the function comes to. -/
inductive LoadedPoint : Point → Prop
  | entry {n : ℕ} {block : BasicBlock} : loadedSwitch.findBlock ⟨0⟩ = some block → n ≤ 5 →
      LoadedPoint (loadedPoint n (block.instructions.drop n) block.terminator)
  | case {n : ℕ} {block : BasicBlock} : loadedSwitch.findBlock ⟨1⟩ = some block → n ≤ 1 →
      LoadedPoint (loadedPoint (5 + n) (block.instructions.drop n) block.terminator)

theorem loadedPoint_of_reached {request : CallRequest} {s : InterpreterState} {p : Point}
    (h : Reached (switchModule loadedSwitch) idleUnit request s p)
    (hrequest : request = ⟨loadedSwitch, [], [], []⟩) (hs : s = {}) : LoadedPoint p := by
  induction h with
  | enter _ hbind hblock =>
    subst hrequest hs
    cases hbind
    exact .entry hblock (Nat.zero_le 5)
  | @instruction request s n ctx st st' i rest terminator _ hexec ih =>
    have hp := ih hrequest hs
    generalize hpoint : (⟨ctx, st, i :: rest, terminator⟩ : Point) = p at hp
    cases hp with
    | @entry k block hblock hk =>
      cases hblock
      obtain ⟨rfl, rfl, hcode, rfl⟩ := Point.mk.inj hpoint
      -- Every instruction writes one value.
      obtain _ | _ | _ | _ | _ | _ | k := k
      · cases hcode
        cases hexec
        exact .entry (n := 1) rfl (by omega)
      · cases hcode
        cases hexec
        exact .entry (n := 2) rfl (by omega)
      · cases hcode
        cases hexec
        exact .entry (n := 3) rfl (by omega)
      · cases hcode
        cases hexec
        exact .entry (n := 4) rfl (by omega)
      · cases hcode
        cases hexec
        exact .entry (n := 5) rfl (by omega)
      · cases hcode
      · omega
    | @case k block hblock hk =>
      cases hblock
      obtain ⟨rfl, rfl, hcode, rfl⟩ := Point.mk.inj hpoint
      obtain _ | _ | k := k
      · cases hcode
        cases hexec
        exact .case (n := 1) rfl (by omega)
      · cases hcode
      · omega
  | @jump request s n ctx st st' terminator next block _ hexec hnext ih =>
    have hp := ih hrequest hs
    generalize hpoint : (⟨ctx, st, [], terminator⟩ : Point) = p at hp
    cases hp with
    | @entry k block hblock hk =>
      cases hblock
      obtain ⟨rfl, rfl, hcode, rfl⟩ := Point.mk.inj hpoint
      have hlast : 5 ≤ k := List.drop_eq_nil_iff.mp hcode.symm
      obtain rfl : k = 5 := Nat.le_antisymm hk hlast
      cases hexec
      exact .case (n := 0) hnext (by omega)
    | @case k block hblock hk =>
      cases hblock
      obtain ⟨rfl, rfl, hcode, rfl⟩ := Point.mk.inj hpoint
      have hlast : 1 ≤ k := List.drop_eq_nil_iff.mp hcode.symm
      obtain rfl : k = 1 := Nat.le_antisymm hk hlast
      cases hexec
  | call _ hrequests _ ih =>
    have hp := ih hrequest hs
    cases hp with
    | @entry k block hblock hk =>
      cases hblock
      obtain _ | _ | _ | _ | _ | _ | k := k <;> cases hrequests
    | @case k block hblock hk =>
      cases hblock
      obtain _ | _ | k := k <;> cases hrequests

/-- Its slot holds what was loaded whenever the case of that is looked at. -/
theorem loadsCurrent_loaded {p : Point} (h : LoadedPoint p) : LoadsCurrent p := by
  intro id slot v hexamined horigin hv
  cases h with
  | @entry k block hblock hk =>
    cases hblock
    obtain _ | _ | _ | _ | _ | _ | k := k
    · cases hexamined
    · cases hexamined
    · cases hexamined
    · cases hexamined
    · cases hexamined
    · cases hexamined
      cases horigin
      cases hv
      exact ⟨_, rfl, rfl, rfl⟩
    · omega
  | @case k block hblock hk =>
    cases hblock
    obtain _ | _ | k := k
    · cases hexamined
      cases horigin
      cases hv
      exact ⟨_, rfl, rfl, rfl⟩
    · cases hexamined
    · omega

theorem projects_active_case_loaded : ∃ p,
    Reached (switchModule loadedSwitch) idleUnit ⟨loadedSwitch, [], [], []⟩ {} p ∧
      p.instructions = [.value ⟨4⟩ .i64 (.variantPayload ⟨3⟩ ⟨1⟩ 0 0)] ∧ ProjectsActiveCase p := by
  have hswitch : Reached (switchModule loadedSwitch) idleUnit ⟨loadedSwitch, [], [], []⟩ {}
      ⟨switchFrame loadedSwitch, ⟨{ callDepth := 1 }, loadedValues 5, []⟩, [],
        .switch ⟨3⟩ ⟨1⟩ [⟨1⟩, ⟨2⟩]⟩ := reached_switch rfl rfl rfl
  have hjump : Reached (switchModule loadedSwitch) idleUnit ⟨loadedSwitch, [], [], []⟩ {} _ :=
    .jump (n := 0) hswitch rfl rfl
  have haccepted : CasesAccepted (switchModule loadedSwitch) := switchModule_accepted
    (by decide +kernel) (by decide +kernel) (by decide +kernel) (by decide +kernel)
  exact ⟨_, hjump, rfl, projects_active_case haccepted (List.mem_singleton_self _)
    (fun p hp => loadsCurrent_loaded (loadedPoint_of_reached hp rfl rfl)) _ hjump⟩

/-- `bb0` stores case 0 of a variant, loads it, stores case 1 and switches on what it loaded.
`bb1` loads the slot again and projects a payload of case 0 out of that. -/
def staleSwitch : Function where
  id := ⟨0⟩
  name := ⟨0⟩
  typeParams := []
  requirements := []
  params := []
  returnType := .i64
  raises := []
  blocks := [⟨⟨0⟩, [.value ⟨0⟩ (.named ⟨1⟩) .alloc, .value ⟨1⟩ .i64 (.const (.int 1)),
      .value ⟨2⟩ (.named ⟨1⟩) (.variantCreate ⟨1⟩ 0 [] [⟨1⟩]), .store ⟨0⟩ ⟨2⟩ .observe,
      .value ⟨3⟩ (.named ⟨1⟩) (.load ⟨0⟩),
      .value ⟨4⟩ (.named ⟨1⟩) (.variantCreate ⟨1⟩ 1 [] [⟨1⟩]), .store ⟨0⟩ ⟨4⟩ .observe],
      .switch ⟨3⟩ ⟨1⟩ [⟨1⟩, ⟨2⟩]⟩,
    ⟨⟨1⟩, [.value ⟨5⟩ (.named ⟨1⟩) (.load ⟨0⟩),
      .value ⟨6⟩ .i64 (.variantPayload ⟨5⟩ ⟨1⟩ 0 0)], .ret (some ⟨6⟩)⟩,
    ⟨⟨2⟩, [], .ret (some ⟨1⟩)⟩]

/-- What the frame has in front of the switch. -/
def staleValues : Values :=
  ((((((AList.insert ⟨0⟩ .unit ∅ : Values).insert ⟨1⟩ (.int 1)).insert ⟨2⟩
    (.variant ⟨1⟩ [] 0 [.int 1])).insert ⟨0⟩ (.variant ⟨1⟩ [] 0 [.int 1])).insert ⟨3⟩
    (.variant ⟨1⟩ [] 0 [.int 1])).insert ⟨4⟩ (.variant ⟨1⟩ [] 1 [.int 1])).insert ⟨0⟩
    (.variant ⟨1⟩ [] 1 [.int 1])

/-- Switching on the value that was loaded before the slot was written proves its case of the
slot, and of what is loaded from the slot later on. -/
theorem stale_load_projected : CasesAccepted (switchModule staleSwitch) ∧
    staleSwitch ∈ (switchModule staleSwitch).functions ∧
    ∃ p, Reached (switchModule staleSwitch) idleUnit ⟨staleSwitch, [], [], []⟩ {} p ∧
      ¬ProjectsActiveCase p := by
  refine ⟨switchModule_accepted (by decide +kernel) (by decide +kernel) (by decide +kernel)
    (by decide +kernel), List.mem_singleton_self _, ?_⟩
  have hswitch : Reached (switchModule staleSwitch) idleUnit ⟨staleSwitch, [], [], []⟩ {}
      ⟨switchFrame staleSwitch, ⟨{ callDepth := 1 }, staleValues, []⟩, [],
        .switch ⟨3⟩ ⟨1⟩ [⟨1⟩, ⟨2⟩]⟩ := reached_switch rfl rfl rfl
  have hjump : Reached (switchModule staleSwitch) idleUnit ⟨staleSwitch, [], [], []⟩ {} _ :=
    .jump (n := 0) hswitch rfl rfl
  have hload : Reached (switchModule staleSwitch) idleUnit ⟨staleSwitch, [], [], []⟩ {} _ :=
    .instruction (n := 0) hjump rfl
  refine ⟨_, hload, fun hprojects => ?_⟩
  have hcase := hprojects ⟨6⟩ .i64 ⟨5⟩ ⟨1⟩ 0 0 [] (.variant ⟨1⟩ [] 1 [.int 1]) rfl rfl rfl
  cases hcase

end

end Napitia.Verify

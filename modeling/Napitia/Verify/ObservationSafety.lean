import Napitia.Verify.Acceptance
import Napitia.Verify.Passage

/-!
# The observation analysis is sound up to what it does not look at

Once the analysis has settled without a diagnostic, the state it computed for a block
holds for every path that arrives there: the same observations in the same order, at
the places they began at, and at least what every value carries unless it was lost
track of. So a path can only go wrong where no check looks.
-/
namespace Napitia.Verify
open Nir

/-! ### Facts about carriers -/

theorem mem_carriersOf {facts : CarrierFacts} {value : ValueId} {id : ObservationId} :
    id ∈ carriersOf facts value ↔ (value, id) ∈ facts := by
  simp [carriersOf]

theorem carriersOf_setCarriers (facts : CarrierFacts) (value other : ValueId)
    (carried : Finset ObservationId) :
    carriersOf (setCarriers facts value carried) other =
      if other = value then carried else carriersOf facts other := by
  ext id
  rw [mem_carriersOf]
  by_cases h : other = value
  · simp [setCarriers, h]
  · simp [setCarriers, h, mem_carriersOf, Ne.symm h]

/-! ### The checks of one instruction -/

variable {m : Module} {ctx : ObservationContext} {f : Function}

theorem checkUses_eq_nil {operands : List ValueId} {stack : List ObservationId}
    {carriers : CarrierFacts} (h : checkUses operands stack carriers = []) :
    ∀ operand ∈ operands, ∀ id ∈ carriersOf carriers operand, id ∈ stack := by
  intro operand hmem
  have hone := List.flatMap_eq_nil_iff.mp h operand hmem
  by_contra hnot
  rw [if_neg hnot] at hone
  exact List.cons_ne_nil _ _ hone

theorem checkConsumed_eq_nil {places : List (Place ValueId)} {stack : List ObservationId}
    (h : checkConsumed ctx places stack = []) :
    ∀ place ∈ places, ∀ id ∈ stack, ∀ begin, ctx.begins id = some begin →
      placesOverlap (ctx.canonical begin) place = false := by
  intro place hmem id hid begin hbegin
  have hone := List.flatMap_eq_nil_iff.mp h place hmem
  by_contra hoverlap
  have hany : (stack.any fun id => (ctx.begins id).any fun begin =>
      placesOverlap (ctx.canonical begin) place) = true := by
    rw [List.any_eq_true]
    exact ⟨id, hid, by simpa [hbegin] using hoverlap⟩
  rw [if_pos hany] at hone
  exact List.cons_ne_nil _ _ hone

theorem transferred_of_taken {callee : ItemId} {args : List ValueId} {arg : ValueId}
    (h : arg ∈ takenArgs (ctx.take callee) args) (haffine : ctx.isAffine arg = true) :
    ctx.rootOf arg ∈ ctx.transferred callee args := by
  have ⟨⟨found, index⟩, hzip, htaken⟩ := List.mem_filterMap.mp h
  refine List.mem_filterMap.mpr ⟨(found, index), hzip, ?_⟩
  dsimp only at htaken ⊢
  by_cases hflag : ((ctx.take callee).bind (·[index]?)) = some true
  · rw [if_pos hflag] at htaken
    cases htaken
    have htransfers : argumentTransfers (ctx.take callee) args.length index = true := by
      unfold argumentTransfers
      cases hflags : ctx.take callee with
      | none => rfl
      | some flags =>
        rw [hflags] at hflag
        have hindex : flags[index]? = some true := hflag
        simp [hindex]
    simp [haffine, htransfers]
  · rw [if_neg hflag] at htaken
    exact absurd htaken (by simp)

theorem mem_affineRoots {values : List ValueId} {value : ValueId} (hmem : value ∈ values)
    (haffine : ctx.isAffine value = true) : ctx.rootOf value ∈ ctx.affineRoots values :=
  List.mem_map_of_mem (List.mem_filter.mpr ⟨hmem, haffine⟩)

theorem rootOf_mem_consumedPlaces {i : Instruction} {value : ValueId}
    (hmem : value ∈ moved m ctx i) (haffine : ctx.isAffine value = true)
    (hcall : ∀ result ty protocol arguments method evidence args,
      i ≠ .value result ty (.protocolCall protocol arguments method evidence args)) :
    ctx.rootOf value ∈ consumedPlaces ctx i := by
  cases i with
  | value result ty kind =>
    cases kind with
    | call callee typeArgs args evidence => exact transferred_of_taken hmem haffine
    | protocolCall protocol arguments method evidence args => exact (hcall _ _ _ _ _ _ _ rfl).elim
    | move | deferCapture | recordCreate | variantCreate => exact mem_affineRoots hmem haffine
    | _ => exact absurd hmem List.not_mem_nil
  | store slot source mode =>
    refine List.mem_append_left _ ?_
    by_cases hmode : mode = .transfer
    · rw [if_pos hmode]
      exact mem_affineRoots (by simpa [moved, hmode] using hmem) haffine
    · exact absurd hmem (by simp [moved, hmode])
  | drop source => exact mem_affineRoots hmem haffine
  | decomposeVariant source variant case taken =>
    rw [List.mem_singleton.mp hmem]
    exact List.mem_singleton_self _
  | storePlace place source => exact List.mem_cons_of_mem _ (mem_affineRoots hmem haffine)
  | endObserve observation => exact absurd hmem List.not_mem_nil

theorem consumed_covered {i : Instruction} {place : Place ValueId}
    (h : place ∈ consumed m ctx i) :
    place ∈ consumedPlaces ctx i ∨ place ∈ unchecked m ctx i := by
  rcases List.mem_append.mp h with hmoved | hwritten
  · have ⟨value, hmem, heq⟩ := List.mem_map.mp hmoved
    subst heq
    by_cases hcall : ∃ result ty protocol arguments method evidence args,
        i = .value result ty (.protocolCall protocol arguments method evidence args)
    · have ⟨_, _, _, _, _, _, _, heq⟩ := hcall
      subst heq
      exact .inr hmoved
    · cases haffine : ctx.isAffine value with
      | true =>
        left
        apply rootOf_mem_consumedPlaces hmem haffine
        intro result ty protocol arguments method evidence args heq
        exact hcall ⟨result, ty, protocol, arguments, method, evidence, args, heq⟩
      | false =>
        right
        have hfilter : ctx.rootOf value ∈
            ((moved m ctx i).filter (!ctx.isAffine ·)).map ctx.rootOf :=
          List.mem_map_of_mem (List.mem_filter.mpr ⟨hmem, by simp [haffine]⟩)
        unfold unchecked
        split
        · exact hmoved
        · exact List.mem_append_left _ hfilter
        · exact hfilter
  · cases i with
    | value result ty kind =>
      cases kind with
      | placeRead read mode =>
        cases mode with
        | observe => exact absurd hwritten List.not_mem_nil
        | transfer => exact .inl hwritten
      | _ => exact absurd hwritten List.not_mem_nil
    | store slot source mode =>
      have heq := List.mem_singleton.mp hwritten
      cases haffine : ctx.isAffine slot with
      | true => exact .inl (List.mem_append_right _ (by simp [haffine, heq]))
      | false => exact .inr (List.mem_append_right _ (by simp [haffine, heq]))
    | storePlace target source =>
      left
      rw [List.mem_singleton.mp hwritten]
      exact List.mem_cons_self
    | _ => exact absurd hwritten List.not_mem_nil

theorem terminatorConsumed_covered {terminator : Terminator} {place : Place ValueId}
    (h : place ∈ terminatorConsumed ctx terminator) :
    place ∈ terminatorConsumes ctx terminator ∨ place ∈ terminatorUnchecked ctx terminator := by
  rcases List.mem_append.mp h with hmoved | hwritten
  · have ⟨value, hmem, heq⟩ := List.mem_map.mp hmoved
    subst heq
    cases haffine : ctx.isAffine value with
    | true =>
      left
      cases terminator with
      | switch scrutinee variant cases => exact mem_affineRoots hmem haffine
      | invoke callee typeArgs args evidence okSlot okTarget errTargets =>
        exact transferred_of_taken hmem haffine
      | _ => exact absurd hmem List.not_mem_nil
    | false =>
      right
      exact List.mem_append_left _
        (List.mem_map_of_mem (List.mem_filter.mpr ⟨hmem, by simp [haffine]⟩))
  · exact .inr (List.mem_append_right _ hwritten)

/-! ### One instruction -/

/-- The state an analysis has covers a path's. -/
structure Covers (ctx : ObservationContext) (stack : List ObservationId) (carriers : CarrierFacts)
    (s : Passage) : Prop where
  stack_eq : stack = s.ids
  held : ∀ entry ∈ s.active, ∃ begin, ctx.begins entry.1 = some begin ∧
    ctx.canonical begin = entry.2
  carried : ∀ value, ∀ id ∈ s.carried value, id ∈ carriersOf carriers value ∨ id ∈ s.strayed value

section
variable {stack : List ObservationId} {carriers : CarrierFacts} {s : Passage}

theorem Covers.untouched (h : Covers ctx stack carriers s) {checked rest places}
    (hcovered : ∀ place ∈ places, place ∈ checked ∨ place ∈ rest)
    (hchecked : checkConsumed ctx checked stack = []) (hrest : s.Untouched rest) :
    s.Untouched places := by
  intro place hmem held hheld
  rcases hcovered place hmem with hin | hin
  · have ⟨begin, hbegin, hplace⟩ := h.held held hheld
    have hid : held.1 ∈ stack := h.stack_eq ▸ List.mem_map_of_mem hheld
    rw [← hplace]
    exact checkConsumed_eq_nil hchecked place hin held.1 hid begin hbegin
  · exact hrest place hin held hheld

theorem Covers.inForce (h : Covers ctx stack carriers s) {values : List ValueId}
    (hchecked : checkUses values stack carriers = []) (hstrayed : s.NoneStrayed values) :
    s.InForce values := by
  intro value hmem id hid
  rcases h.carried value id hid with hin | hin
  · exact h.stack_eq ▸ checkUses_eq_nil hchecked value hmem id hin
  · exact hstrayed value hmem id hid hin

/-- What the analysis lets the result of a kind carry. -/
def analysedCarriers (ctx : ObservationContext) (carriers : CarrierFacts) :
    ValueKind → Finset ObservationId
  | .observePlace observation _ => {observation}
  | .load slot => carriersOf carriers slot
  | kind => ((handedOn kind).map fun value => carriersOf carriers (ctx.origin value)).getD ∅

theorem carryInstruction_value (result : ValueId) (ty : Ty) (kind : ValueKind) :
    carryInstruction ctx carriers (.value result ty kind) =
      setCarriers carriers result (analysedCarriers ctx carriers kind) := by
  cases kind <;> rfl

theorem Covers.carriedBy (h : Covers ctx stack carriers s) (kind : ValueKind) :
    ∀ id ∈ s.carriedBy kind,
      id ∈ analysedCarriers ctx carriers kind ∨ id ∈ s.strayedBy ctx kind := by
  have hhanded : ∀ value, ∀ id ∈ s.carried value,
      id ∈ carriersOf carriers (ctx.origin value) ∨ id ∈ s.strayedFrom ctx value := by
    intro value id hid
    by_cases horigin : id ∈ s.carried (ctx.origin value)
    · rcases h.carried _ id horigin with hin | hin
      · exact .inl hin
      · exact .inr (by simp [Passage.strayedFrom, hin])
    · exact .inr (by simp [Passage.strayedFrom, hid, horigin])
  intro id hid
  cases kind with
  | observePlace observation place => exact .inl hid
  | load slot => exact h.carried slot id hid
  | placeRead | recordField | variantPayload | move | deferCapture => exact hhanded _ id hid
  | _ => exact absurd hid (Finset.notMem_empty id)

theorem Covers.update (h : Covers ctx stack carriers s) {stack' : List ObservationId} {s' : Passage}
    (hstack : stack' = s'.ids)
    (hheld : ∀ entry ∈ s'.active, ∃ begin, ctx.begins entry.1 = some begin ∧
      ctx.canonical begin = entry.2)
    {target : ValueId} {analysed carried strayed : Finset ObservationId}
    (hcarried : s'.carried = Function.update s.carried target carried)
    (hstrayed : s'.strayed = Function.update s.strayed target strayed)
    (hcovered : ∀ id ∈ carried, id ∈ analysed ∨ id ∈ strayed) :
    Covers ctx stack' (setCarriers carriers target analysed) s' := by
  refine ⟨hstack, hheld, fun value id hid => ?_⟩
  rw [hcarried] at hid
  rw [carriersOf_setCarriers, hstrayed]
  by_cases hvalue : value = target
  · subst hvalue
    rw [Function.update_self] at hid ⊢
    simpa using hcovered id hid
  · rw [Function.update_of_ne hvalue] at hid ⊢
    simpa [hvalue] using h.carried value id hid

/-- An instruction no check complains of nests, and what the analysis makes of it
covers what a path makes of it. -/
theorem Covers.instruction (h : Covers ctx stack carriers s) (i : Instruction)
    (hbegins : ∀ result ty observation place,
      i = .value result ty (.observePlace observation place) → ctx.begins observation = some place)
    (hends : ∀ observation, i = .endObserve observation → (ctx.begins observation).isSome)
    (hwrong : (activateInstruction ctx stack i).2 = []) :
    s.Nests i ∧ Covers ctx (activateInstruction ctx stack i).1 (carryInstruction ctx carriers i)
      (s.after ctx i) := by
  cases i with
  | value result ty kind =>
    rw [carryInstruction_value]
    by_cases hkind : ∃ observation place, kind = .observePlace observation place
    · have ⟨observation, place, heq⟩ := hkind
      subst heq
      have hnew : observation ∉ stack := by
        intro hmem
        exact absurd hwrong (by simp [activateInstruction, hmem])
      have hnests : observation ∉ s.ids := h.stack_eq ▸ hnew
      refine ⟨hnests, h.update ?_ ?_ rfl rfl (h.carriedBy _)⟩
      · have hstack : (activateInstruction ctx stack
            (.value result ty (.observePlace observation place))).1 = observation :: stack := by
          simp [activateInstruction, hnew]
        rw [hstack, h.stack_eq]
        rfl
      · intro entry hmem
        rcases List.mem_cons.mp hmem with heq | hmem
        · exact heq ▸ ⟨place, hbegins result ty observation place rfl, rfl⟩
        · exact h.held entry hmem
    · have hsame : activateInstruction ctx stack (.value result ty kind) = (stack, []) ∧
          s.Nests (.value result ty kind) ∧
          (s.after ctx (.value result ty kind)).active = s.active := by
        cases kind with
        | observePlace observation place => exact absurd ⟨observation, place, rfl⟩ hkind
        | _ => exact ⟨rfl, trivial, rfl⟩
      have ⟨hactivate, hnests, hactive⟩ := hsame
      refine ⟨hnests, h.update ?_ ?_ rfl rfl (h.carriedBy kind)⟩
      · rw [hactivate, Passage.ids, hactive]
        exact h.stack_eq
      · rw [hactive]
        exact h.held
  | store slot value mode =>
    refine ⟨trivial, ?_⟩
    cases mode with
    | observe =>
      refine h.update ?_ ?_ rfl rfl (h.carried value)
      · exact h.stack_eq
      · exact h.held
    | transfer =>
      refine h.update ?_ ?_ rfl rfl fun id hid => absurd hid (Finset.notMem_empty id)
      · exact h.stack_eq
      · exact h.held
  | endObserve observation =>
    have hbegun := hends observation rfl
    have hinnermost : stack.head? = some observation := by
      by_contra hnot
      by_cases hmem : observation ∈ stack
      · exact absurd hwrong (by simp [activateInstruction, Option.isSome_iff_ne_none.mp hbegun,
          hnot, hmem])
      · exact absurd hwrong (by simp [activateInstruction, Option.isSome_iff_ne_none.mp hbegun,
          hnot, hmem])
    have hnests : s.ids.head? = some observation := h.stack_eq ▸ hinnermost
    refine ⟨hnests, ?_, ?_, h.carried⟩
    · have hstack : (activateInstruction ctx stack (.endObserve observation)).1 = stack.tail := by
        simp [activateInstruction, Option.isSome_iff_ne_none.mp hbegun, hinnermost]
      rw [hstack, h.stack_eq]
      cases hactive : s.active with
      | nil => exact absurd hnests (by simp [Passage.ids, hactive])
      | cons entry rest =>
        have hentry : entry.1 = observation := by simpa [Passage.ids, hactive] using hnests
        simp [Passage.ids, Passage.after, Passage.activate, hactive, hentry]
    · exact fun entry hmem => h.held entry (List.mem_of_mem_eraseP hmem)
  | drop | decomposeVariant | storePlace => exact ⟨trivial, h.stack_eq, h.held, h.carried⟩

end

/-! ### What a settled analysis says of a function -/

theorem blockById_of_mem {block : BasicBlock} (hnodup : (f.blocks.map (·.id)).Nodup)
    (hmem : block ∈ f.blocks) : blockById f block.id = some block :=
  find?_reverse_of_nodup hnodup hmem

theorem collectBegins_eq_nil {found : List (BlockId × ℕ × ObservationId × Place ValueId)}
    {begins : Begins} (h : (collectBegins found begins).2 = []) :
    (∀ id, (begins.lookup id).isSome →
      (collectBegins found begins).1.lookup id = begins.lookup id) ∧
    ∀ entry ∈ found, (collectBegins found begins).1.lookup entry.2.2.1 = some entry.2.2.2 := by
  induction found generalizing begins with
  | nil => exact ⟨fun _ _ => rfl, fun _ hmem => absurd hmem List.not_mem_nil⟩
  | cons entry rest ih =>
    have ⟨block, index, observation, place⟩ := entry
    rw [collectBegins] at h ⊢
    split at h
    · exact absurd h (List.cons_ne_nil _ _)
    · rename_i hfresh
      rw [if_neg hfresh]
      have ⟨hkept, hrecorded⟩ := ih h
      have hnew := hkept observation (by simp)
      refine ⟨fun id hid => ?_, fun entry hmem => ?_⟩
      · have hne : id ≠ observation := fun heq => hfresh (heq ▸ hid)
        have hsame : (begins.insert observation place).lookup id = begins.lookup id :=
          AList.lookup_insert_ne hne
        rw [← hsame]
        exact hkept id (hsame ▸ hid)
      · rcases List.mem_cons.mp hmem with heq | hmem
        · rw [heq, hnew, AList.lookup_insert]
        · exact hrecorded entry hmem

theorem mem_sortSites {α : Type} {found : List (BlockId × ℕ × α)} {site : BlockId × ℕ × α} :
    site ∈ sortSites found ↔ site ∈ found :=
  List.mem_mergeSort

section
variable {reachable : List BlockId} {out : OutStates}

/-- A joined state that one incoming state went into: it has its stack, unless the
paths disagree, and all its carriers. -/
def Joins (joined : Option ObservationState) (incoming : ObservationState) : Prop :=
  ∃ state, joined = some state ∧ (state.stack = incoming.stack ∨ state.stack = .conflict) ∧
    incoming.carriers ⊆ state.carriers

theorem Joins.joinEdge {joined : Option ObservationState} {incoming : ObservationState}
    (h : Joins joined incoming) (edge : BlockId × Option ValueId) :
    Joins (joinEdge reachable out joined edge) incoming := by
  have ⟨state, hjoined, hstack, hcarriers⟩ := h
  subst hjoined
  unfold Verify.joinEdge
  split
  · split
    · exact h
    · rename_i found _
      refine ⟨_, rfl, ?_, Finset.Subset.trans hcarriers Finset.subset_union_left⟩
      by_cases hsame : state.stack = (found.along edge.2).stack
      · rcases hstack with heq | heq
        · exact .inl ((if_pos hsame).trans heq)
        · exact .inr ((if_pos hsame).trans heq)
      · exact .inr (if_neg hsame)
  · exact h

theorem joinEdge_joins (joined : Option ObservationState) {edge : BlockId × Option ValueId}
    (hreachable : edge.1 ∈ reachable) {state : ObservationState}
    (hout : out.lookup edge.1 = some state) :
    Joins (joinEdge reachable out joined edge) (state.along edge.2) := by
  simp only [joinEdge, if_pos hreachable, hout]
  cases joined with
  | none => exact ⟨_, rfl, .inl rfl, Finset.Subset.refl _⟩
  | some previous =>
    refine ⟨_, rfl, ?_, Finset.subset_union_right⟩
    by_cases hsame : previous.stack = (state.along edge.2).stack
    · exact .inl ((if_pos hsame).trans hsame)
    · exact .inr (if_neg hsame)

theorem foldl_joins {edges : List (BlockId × Option ValueId)} {edge : BlockId × Option ValueId}
    (hmem : edge ∈ edges) (hreachable : edge.1 ∈ reachable) {state : ObservationState}
    (hout : out.lookup edge.1 = some state) (joined : Option ObservationState) :
    Joins (edges.foldl (joinEdge reachable out) joined) (state.along edge.2) := by
  have hkept : ∀ (edges : List (BlockId × Option ValueId)) (joined : Option ObservationState),
      Joins joined (state.along edge.2) →
        Joins (edges.foldl (joinEdge reachable out) joined) (state.along edge.2) := by
    intro edges
    induction edges with
    | nil => exact fun _ h => h
    | cons first edges ih => exact fun joined h => ih _ (h.joinEdge first)
  induction edges generalizing joined with
  | nil => exact absurd hmem List.not_mem_nil
  | cons first edges ih =>
    rcases List.mem_cons.mp hmem with heq | hmem
    · exact hkept edges _ (heq ▸ joinEdge_joins joined hreachable hout)
    · exact ih hmem _

theorem joinIn_congr {id : BlockId} {out' : OutStates}
    (h : ∀ p, id ∈ successors f p → out.lookup p = out'.lookup p) :
    joinIn f reachable id out = joinIn f reachable id out' := by
  unfold joinIn
  split
  · rfl
  · apply List.foldl_ext
    intro joined edge hmem
    unfold joinEdge
    rw [h edge.1 (successors_of_predecessors hmem)]

theorem joinIn_empty {id : BlockId} (hid : id ≠ entry) : joinIn f reachable id ∅ = none := by
  rw [joinIn, if_neg hid]
  induction predecessors f id with
  | nil => rfl
  | cons edge edges ih => simpa [joinEdge] using ih

/-- What is known of a function its analysis settled on without a diagnostic. -/
structure Settled (ctx : ObservationContext) (f : Function) (reachable : List BlockId)
    (out : OutStates) : Prop where
  nodup : (f.blocks.map (·.id)).Nodup
  entry_edge : ∀ block ∈ f.blocks, ∀ edge ∈ terminatorEdges block.terminator, edge.1 ≠ entry
  begins : ∀ block ∈ f.blocks, ∀ result ty observation place,
    .value result ty (.observePlace observation place) ∈ block.instructions →
      ctx.begins observation = some place
  ends : ∀ block ∈ f.blocks, ∀ observation, .endObserve observation ∈ block.instructions →
    (ctx.begins observation).isSome
  entry_reachable : entry ∈ reachable
  closed : ∀ id ∈ reachable, ∀ next ∈ successors f id, next ∈ reachable
  stable : ∀ block ∈ f.blocks, block.id ∈ reachable → ∀ state,
    joinIn f reachable block.id out = some state →
      out.lookup block.id = some (observationTransfer ctx block state).1
  agree : ∀ block ∈ f.blocks, block.id ∈ reachable → ∀ state,
    joinIn f reachable block.id out = some state → state.stack ≠ .conflict
  clean : ∀ block ∈ f.blocks, block.id ∈ reachable → ∀ state,
    joinIn f reachable block.id out = some state → (observationTransfer ctx block state).2 = []
  exits : ∀ block ∈ f.blocks, block.id ∈ reachable → Leaves block.terminator →
    ∀ stack carriers, out.lookup block.id = some ⟨.active stack, carriers⟩ → stack = []

theorem recompute_stable {fuel : ℕ} (hnodup : (f.blocks.map (·.id)).Nodup)
    (h : Worklist.settle (· ∈ reachable) (successors f) (recompute ctx f reachable) fuel ∅ [entry] =
      some out) :
    ∀ block ∈ f.blocks, block.id ∈ reachable → ∀ state,
      joinIn f reachable block.id out = some state →
        out.lookup block.id = some (observationTransfer ctx block state).1 := by
  have hlocal : ∀ id out out',
      (∀ p, id ∈ successors f p → AList.lookup p out = AList.lookup p out') →
        recompute ctx f reachable id out = recompute ctx f reachable id out' := by
    intro id out out' hagree
    unfold recompute
    rw [joinIn_congr hagree]
  have hkeep : ∀ id out, decide (id ∈ reachable) = false →
      recompute ctx f reachable id out = none :=
    fun id out hid => if_neg (of_decide_eq_false hid)
  have hinit : ∀ id, id ∈ [entry] ∨ Worklist.Stable (recompute ctx f reachable) ∅ id := by
    intro id
    by_cases hid : id = entry
    · exact .inl (List.mem_singleton.mpr hid)
    · right
      intro state hstate
      unfold recompute at hstate
      rw [joinIn_empty hid] at hstate
      split at hstate
      · cases hblock : blockById f id with
        | none => simp [hblock] at hstate
        | some block => simp [hblock] at hstate
      · exact absurd hstate (by simp)
  intro block hblock hreachable state hstate
  apply Worklist.stable_of_settle hlocal hkeep h hinit
  simp [recompute, hreachable, blockById_of_mem hnodup hblock, hstate]

theorem mem_sweepOrder {id : BlockId} :
    id ∈ sweepOrder f reachable ↔ id ∈ f.blocks.map (·.id) ∧ id ∈ reachable := by
  simp only [sweepOrder, List.mem_filter, List.mem_mergeSort, decide_eq_true_eq]

theorem flowProblems_eq_nil (hnodup : (f.blocks.map (·.id)).Nodup)
    (h : flowProblems ctx f reachable out = []) :
    ∀ block ∈ f.blocks, block.id ∈ reachable → ∀ state,
      joinIn f reachable block.id out = some state →
        state.stack ≠ .conflict ∧ (observationTransfer ctx block state).2 = [] := by
  have hsweep := List.flatMap_eq_nil_iff.mp h
  have hvisit : ∀ block ∈ f.blocks, block.id ∈ reachable → ∀ state,
      joinIn f reachable block.id out = some state →
        (sweepOrder f reachable).find? (fun id =>
          ((joinIn f reachable id out).map (·.stack)) = some .conflict) ≠ some block.id ∧
        (observationTransfer ctx block state).2 = [] := by
    intro block hblock hreachable state hstate
    have hone := hsweep block.id (mem_sweepOrder.mpr ⟨List.mem_map_of_mem hblock, hreachable⟩)
    rw [blockById_of_mem hnodup hblock, hstate] at hone
    have ⟨hfirst, htransfer⟩ := List.append_eq_nil_iff.mp hone
    refine ⟨fun heq => ?_, htransfer⟩
    rw [if_pos heq] at hfirst
    exact List.cons_ne_nil _ _ hfirst
  intro block hblock hreachable state hstate
  refine ⟨fun hconflict => ?_, (hvisit block hblock hreachable state hstate).2⟩
  -- The first block in conflict would have been reported.
  cases hfind : (sweepOrder f reachable).find? (fun id =>
      ((joinIn f reachable id out).map (·.stack)) = some .conflict) with
  | none =>
    have hnot := List.find?_eq_none.mp hfind block.id
      (mem_sweepOrder.mpr ⟨List.mem_map_of_mem hblock, hreachable⟩)
    exact hnot (by simp [hstate, hconflict])
  | some id =>
    have ⟨hid, hfirst⟩ := mem_sweepOrder.mp (List.mem_of_find?_eq_some hfind)
    have ⟨first, hblock', heq⟩ := List.mem_map.mp hid
    subst heq
    have hjoin : (joinIn f reachable first.id out).map (·.stack) = some .conflict := by
      simpa using List.find?_some hfind
    have ⟨state', hstate', _⟩ := Option.map_eq_some_iff.mp hjoin
    exact (hvisit first hblock' hfirst state' hstate').1 hfind

theorem exitProblems_eq_nil (hnodup : (f.blocks.map (·.id)).Nodup)
    (h : exitProblems f reachable out = []) :
    ∀ block ∈ f.blocks, block.id ∈ reachable → Leaves block.terminator →
      ∀ stack carriers, out.lookup block.id = some ⟨.active stack, carriers⟩ → stack = [] := by
  intro block hblock hreachable hleaves stack carriers hout
  have hone := List.flatMap_eq_nil_iff.mp h block.id
    (mem_sweepOrder.mpr ⟨List.mem_map_of_mem hblock, hreachable⟩)
  rw [blockById_of_mem hnodup hblock, hout] at hone
  cases hterminator : block.terminator with
  | ret | raise =>
    simp only [hterminator, Option.map_some] at hone
    exact List.map_eq_nil_iff.mp hone
  | _ => exact absurd hleaves (by simp [hterminator, Leaves])

theorem shapeProblems_eq_nil (h : shapeProblems f = []) :
    (∀ block ∈ f.blocks, ∀ result ty observation place,
      .value result ty (.observePlace observation place) ∈ block.instructions →
        (observationContext m f).begins observation = some place) ∧
    ∀ block ∈ f.blocks, ∀ observation, .endObserve observation ∈ block.instructions →
      ((observationContext m f).begins observation).isSome := by
  have ⟨hbegins, hends⟩ := List.append_eq_nil_iff.mp h
  constructor
  · intro block hblock result ty observation place hmem
    have ⟨index, hsite⟩ := mem_sites hblock hmem
    apply (collectBegins_eq_nil hbegins).2 (block.id, index, observation, place)
    exact mem_sortSites.mpr (List.mem_filterMap.mpr ⟨_, hsite, rfl⟩)
  · intro block hblock observation hmem
    have ⟨index, hsite⟩ := mem_sites hblock hmem
    have hone := List.filterMap_eq_nil_iff.mp hends (block.id, index, observation)
      (mem_sortSites.mpr (List.mem_filterMap.mpr ⟨_, hsite, rfl⟩))
    by_contra hnot
    have hnone : ((collectBegins (beginSites f) ∅).1.lookup observation).isNone = true :=
      Option.isNone_iff_eq_none.mpr (Option.not_isSome_iff_eq_none.mp hnot)
    dsimp only at hone
    rw [if_pos hnone] at hone
    exact absurd hone (by simp)

end

/-- A function the verifier accepts, as far as its observations go. -/
structure ObservationsAccepted (m : Module) (f : Function) : Prop where
  checked : verifyFunction m f = []
  entryEdges : checkEntryEdges f = []
  observations : ∃ fuel, verifyObservations fuel m f = some []

theorem ObservationsAccepted.settled (h : ObservationsAccepted m f) :
    ∃ reachable out, Settled (observationContext m f) f reachable out := by
  have hchecked := h.checked
  unfold verifyFunction at hchecked
  split at hchecked
  · exact absurd hchecked (List.cons_ne_nil _ _)
  split at hchecked
  · exact absurd hchecked (List.cons_ne_nil _ _)
  rename_i hentry
  change ¬(f.blocks.any fun block => decide (block.id = entry)) = false at hentry
  simp only [List.append_eq_nil_iff] at hchecked
  have hnodup : (f.blocks.map (·.id)).Nodup := (checkDistinct_eq_nil hchecked.1.1.2).1
  obtain ⟨fuel, hobservations⟩ := h.observations
  unfold verifyObservations at hobservations
  rw [if_neg hentry] at hobservations
  simp only [Option.bind_eq_bind, Option.bind_eq_some_iff, Option.some.injEq] at hobservations
  obtain ⟨reachable, hreach, out, hsettle, hsorted⟩ := hobservations
  have hproblems : shapeProblems f ++ flowProblems (observationContext m f) f reachable out ++
      exitProblems f reachable out = [] :=
    List.Perm.eq_nil (hsorted ▸ (List.mergeSort_perm _ _).symm)
  obtain ⟨hfront, hexits⟩ := List.append_eq_nil_iff.mp hproblems
  obtain ⟨hshape, hflow⟩ := List.append_eq_nil_iff.mp hfront
  have hclosed := Worklist.reach_closed hreach fun n hn => .inl hn
  refine ⟨reachable, out, hnodup, ?_, (shapeProblems_eq_nil hshape).1,
    (shapeProblems_eq_nil hshape).2, hclosed.1 entry (List.mem_singleton_self _), hclosed.2,
    recompute_stable hnodup hsettle, ?_, ?_, exitProblems_eq_nil hnodup hexits⟩
  · intro block hblock edge hedge heq
    have hnone := List.map_eq_nil_iff.mp (List.flatMap_eq_nil_iff.mp h.entryEdges block hblock)
    exact absurd (List.mem_filter.mpr ⟨hedge, by simpa using heq⟩) (hnone ▸ List.not_mem_nil)
  · exact fun block hblock hreachable state hstate =>
      (flowProblems_eq_nil hnodup hflow block hblock hreachable state hstate).1
  · exact fun block hblock hreachable state hstate =>
      (flowProblems_eq_nil hnodup hflow block hblock hreachable state hstate).2

/-! ### Paths -/

/-- Where a path is within the analysis: the instructions still to run were checked
from a state that covers it, and give the settled state of the block. -/
structure Follows (ctx : ObservationContext) (f : Function) (reachable : List BlockId)
    (out : OutStates) (block : BasicBlock) (rest : List Instruction) (s : Passage) : Prop where
  block_mem : block ∈ f.blocks
  suffix : ∀ i ∈ rest, i ∈ block.instructions
  reachable : block.id ∈ reachable
  analysed : ∃ index stack carriers last carried, Covers ctx stack carriers s ∧
    transferInstructions ctx block.id index rest stack carriers = (last, carried, []) ∧
    out.lookup block.id = some ⟨.active last, carried⟩ ∧
    checkUses (terminatorOperands block.terminator) last carried = [] ∧
    checkConsumed ctx (terminatorConsumes ctx block.terminator) last = []

section
variable {reachable : List BlockId} {out : OutStates} {block : BasicBlock} {s : Passage}

theorem transferInstructions_cons {id : BlockId} {index : ℕ} {i : Instruction}
    {rest : List Instruction} {stack last : List ObservationId} {carriers carried : CarrierFacts}
    (h : transferInstructions ctx id index (i :: rest) stack carriers = (last, carried, [])) :
    checkUses (instructionOperands i) stack carriers = [] ∧
      checkConsumed ctx (consumedPlaces ctx i) stack = [] ∧
      (activateInstruction ctx stack i).2 = [] ∧
      transferInstructions ctx id (index + 1) rest (activateInstruction ctx stack i).1
        (carryInstruction ctx carriers i) = (last, carried, []) := by
  simp only [transferInstructions, Prod.mk.injEq, List.append_eq_nil_iff,
    List.map_eq_nil_iff] at h
  have ⟨hlast, hcarried, ⟨⟨huses, hconsumed⟩, hwrong⟩, hrest⟩ := h
  exact ⟨huses, hconsumed, hwrong, Prod.ext hlast (Prod.ext hcarried hrest)⟩

theorem Settled.arrive (h : Settled ctx f reachable out) (hblock : block ∈ f.blocks)
    (hreachable : block.id ∈ reachable) {stack : List ObservationId} {carriers : CarrierFacts}
    (hjoin : joinIn f reachable block.id out = some ⟨.active stack, carriers⟩)
    (hcovers : Covers ctx stack carriers s) :
    Follows ctx f reachable out block block.instructions s := by
  have hclean := h.clean block hblock hreachable _ hjoin
  have hstable := h.stable block hblock hreachable _ hjoin
  simp only [observationTransfer, List.append_eq_nil_iff, List.map_eq_nil_iff] at hclean hstable
  have ⟨hinstructions, huses, hconsumed⟩ := hclean
  exact ⟨hblock, fun _ hmem => hmem, hreachable, 0, stack, carriers, _, _, hcovers,
    Prod.ext rfl (Prod.ext rfl hinstructions), hstable, huses, hconsumed⟩

theorem Follows.after (h : Settled ctx f reachable out) {i : Instruction} {rest : List Instruction}
    (hfollows : Follows ctx f reachable out block (i :: rest) s) :
    s.Nests i ∧ Follows ctx f reachable out block rest (s.after ctx i) := by
  have ⟨index, stack, carriers, last, carried, hcovers, htransfer, hrest⟩ := hfollows.analysed
  have ⟨_, _, hwrong, hnext⟩ := transferInstructions_cons htransfer
  have hmem := hfollows.suffix i List.mem_cons_self
  have ⟨hnests, hcovers'⟩ := hcovers.instruction i
    (fun result ty observation place heq =>
      h.begins block hfollows.block_mem result ty observation place (heq ▸ hmem))
    (fun observation heq => h.ends block hfollows.block_mem observation (heq ▸ hmem)) hwrong
  exact ⟨hnests, hfollows.block_mem, fun j hj => hfollows.suffix j (List.mem_cons_of_mem i hj),
    hfollows.reachable, index + 1, _, _, last, carried, hcovers', hnext, hrest⟩

theorem Covers.along {stack : List ObservationId} {carriers carriers' : CarrierFacts}
    (h : Covers ctx stack carriers s) (written : Option ValueId)
    (hsub : ((ObservationState.mk (.active stack) carriers).along written).carriers ⊆ carriers') :
    Covers ctx stack carriers' (s.along written) := by
  have hmono : ∀ {value id}, id ∈ carriersOf
      ((ObservationState.mk (.active stack) carriers).along written).carriers value →
        id ∈ carriersOf carriers' value :=
    fun hid => mem_carriersOf.mpr (hsub (mem_carriersOf.mp hid))
  refine ⟨h.stack_eq, h.held, fun value id hid => ?_⟩
  cases written with
  | none => exact (h.carried value id hid).imp_left hmono
  | some slot =>
    by_cases hvalue : value = slot
    · subst hvalue
      exact absurd hid (by simp [Passage.along])
    · have hid' : id ∈ s.carried value := by simpa [Passage.along, hvalue] using hid
      rcases h.carried value id hid' with hin | hin
      · refine .inl (hmono ?_)
        show id ∈ carriersOf (setCarriers carriers slot ∅) value
        rwa [carriersOf_setCarriers, if_neg hvalue]
      · exact .inr (by simpa [Passage.along, hvalue] using hin)

theorem Follows.edge (h : Settled ctx f reachable out) {next : BasicBlock}
    {written : Option ValueId} (hfollows : Follows ctx f reachable out block [] s)
    (hedge : (next.id, written) ∈ terminatorEdges block.terminator) (hnext : next ∈ f.blocks) :
    Follows ctx f reachable out next next.instructions (s.along written) := by
  have ⟨index, stack, carriers, last, carried, hcovers, htransfer, hout, _⟩ := hfollows.analysed
  cases htransfer
  have hblock := hfollows.block_mem
  have hreachable := h.closed _ hfollows.reachable _ (mem_successors hblock hedge)
  have hjoins : Joins (joinIn f reachable next.id out)
      ((ObservationState.mk (.active stack) carriers).along written) := by
    rw [joinIn, if_neg (h.entry_edge block hblock _ hedge)]
    exact foldl_joins (mem_predecessors hblock hedge) hfollows.reachable hout none
  have ⟨state, hjoin, hstack, hcarriers⟩ := hjoins
  have hactive : state.stack = .active stack := by
    have hsame : ((ObservationState.mk (.active stack) carriers).along written).stack =
        .active stack := by cases written <;> rfl
    rcases hstack with heq | hconflict
    · exact heq.trans hsame
    · exact absurd hconflict (h.agree next hnext hreachable state hjoin)
  have heq : state = ⟨.active stack, state.carriers⟩ := by rw [← hactive]
  exact h.arrive hnext hreachable (heq ▸ hjoin) (hcovers.along written hcarriers)

theorem Walked.follows (h : Settled ctx f reachable out) {rest : List Instruction}
    (hwalked : Walked ctx f block rest s) : Follows ctx f reachable out block rest s := by
  induction hwalked with
  | entry hblock hid =>
    have hreachable := hid ▸ h.entry_reachable
    refine h.arrive hblock hreachable (if_pos hid) ⟨rfl, ?_, ?_⟩
    · exact fun _ hmem => absurd hmem List.not_mem_nil
    · exact fun _ _ hmem => absurd hmem (Finset.notMem_empty _)
  | instruction _ ih => exact (ih.after h).2
  | edge _ hedge hnext ih => exact ih.edge h hedge hnext

theorem Follows.safeAt (h : Settled ctx f reachable out) {rest : List Instruction}
    (hfollows : Follows ctx f reachable out block rest s) (hclear : s.ClearAt m ctx block rest) :
    s.SafeAt m ctx block rest := by
  have ⟨index, stack, carriers, last, carried, hcovers, htransfer, hout, huses, hconsumed⟩ :=
    hfollows.analysed
  cases rest with
  | nil =>
    cases htransfer
    refine ⟨fun hleaves => ?_, ?_, hcovers.inForce huses hclear.2⟩
    · have hnil := h.exits block hfollows.block_mem hfollows.reachable hleaves _ _ hout
      have hids := hcovers.stack_eq.symm.trans hnil
      exact List.map_eq_nil_iff.mp hids
    · exact hcovers.untouched (fun _ => terminatorConsumed_covered) hconsumed hclear.1
  | cons i rest =>
    have ⟨huses, hconsumed, _⟩ := transferInstructions_cons htransfer
    exact ⟨(hfollows.after h).1,
      hcovers.untouched (fun _ => consumed_covered) hconsumed hclear.1,
      hcovers.inForce huses hclear.2⟩

end

theorem consumed_of_unchecked {i : Instruction} {place : Place ValueId}
    (h : place ∈ unchecked m ctx i) : place ∈ consumed m ctx i := by
  have hfilter : ∀ {values : List ValueId},
      place ∈ (values.filter (!ctx.isAffine ·)).map ctx.rootOf → place ∈ values.map ctx.rootOf := by
    intro values hmem
    have ⟨value, hvalue, heq⟩ := List.mem_map.mp hmem
    exact heq ▸ List.mem_map_of_mem (List.mem_filter.mp hvalue).1
  unfold unchecked at h
  split at h
  · exact List.mem_append_left _ h
  · rename_i slot value mode
    rcases List.mem_append.mp h with hmem | hmem
    · exact List.mem_append_left _ (hfilter hmem)
    · refine List.mem_append_right _ ?_
      split at hmem
      · exact absurd hmem List.not_mem_nil
      · exact hmem
  · exact List.mem_append_left _ (hfilter h)

theorem terminatorConsumed_of_unchecked {terminator : Terminator} {place : Place ValueId}
    (h : place ∈ terminatorUnchecked ctx terminator) :
    place ∈ terminatorConsumed ctx terminator := by
  rcases List.mem_append.mp h with hmem | hmem
  · have ⟨value, hvalue, heq⟩ := List.mem_map.mp hmem
    exact List.mem_append_left _ (heq ▸ List.mem_map_of_mem (List.mem_filter.mp hvalue).1)
  · exact List.mem_append_right _ hmem

theorem Passage.SafeAt.clearAt {s : Passage} {block : BasicBlock} {rest : List Instruction}
    (h : s.SafeAt m ctx block rest) : s.ClearAt m ctx block rest := by
  cases rest with
  | nil =>
    have ⟨_, huntouched, hinForce⟩ := h
    exact ⟨fun place hmem => huntouched place (terminatorConsumed_of_unchecked hmem),
      fun value hmem id hid _ => hinForce value hmem id hid⟩
  | cons i rest =>
    have ⟨_, huntouched, hinForce⟩ := h
    exact ⟨fun place hmem => huntouched place (consumed_of_unchecked hmem),
      fun value hmem id hid _ => hinForce value hmem id hid⟩

/-- A function the verifier accepts keeps its observations safe on every path exactly
when no path reaches, without a check, a place one of them holds, and none uses a
value it lost track of after one has ended. -/
theorem observations_safe_iff (h : ObservationsAccepted m f) :
    ObservationsSafe m (observationContext m f) f ↔
      NothingUnchecked m (observationContext m f) f := by
  constructor
  · exact fun hsafe block rest s hwalked => (hsafe block rest s hwalked).clearAt
  · intro hclear block rest s hwalked
    have ⟨_, _, hsettled⟩ := h.settled
    exact (hwalked.follows hsettled).safeAt hsettled (hclear block rest s hwalked)

/-- Takes a `resource File {}` and drops it. -/
def takingMethod : Function where
  id := ⟨3⟩
  name := ⟨4⟩
  typeParams := []
  requirements := []
  params := [⟨⟨0⟩, .named ⟨0⟩, true⟩]
  returnType := .i64
  raises := []
  blocks := [⟨⟨0⟩, [.drop ⟨0⟩, .value ⟨1⟩ .i64 (.const (.int 0))], .ret (some ⟨1⟩)⟩]

/-- Calls `m` of `P[i64]` on a file it is observing. -/
def observingMain : Function where
  id := ⟨4⟩
  name := ⟨5⟩
  typeParams := []
  requirements := []
  params := []
  returnType := .i64
  raises := []
  blocks := [⟨⟨0⟩,
    [.value ⟨0⟩ (.named ⟨0⟩) (.recordCreate ⟨0⟩ [] []),
      .value ⟨1⟩ (.named ⟨0⟩) (.observePlace ⟨0⟩ ⟨⟨0⟩, []⟩),
      .value ⟨2⟩ .i64 (.protocolCall ⟨1⟩ [.i64] 0 (.extension ⟨2⟩ []) [⟨0⟩]),
      .endObserve ⟨0⟩, .drop ⟨0⟩],
    .ret (some ⟨2⟩)⟩]

/-- `protocol P[T] { m(File) -> i64 }` and `extend P[i64]`, whose `m` takes the file. -/
def takingModule : Module where
  records := [(⟨0⟩, ⟨⟨0⟩, [], [], true⟩)]
  protocols := [(⟨1⟩, ⟨⟨1⟩, [(⟨0⟩, ⟨2⟩)], [⟨⟨3⟩, [.named ⟨0⟩], .i64⟩]⟩)]
  extensions := [(⟨2⟩, ⟨⟨1⟩, [], [.i64], [], [⟨3⟩]⟩)]
  functions := [takingMethod, observingMain]

theorem takingModule_accepted :
    verifyModule takingModule = [] ∧ ∀ f ∈ takingModule.functions,
      ObservationsAccepted takingModule f := by
  refine ⟨by decide +kernel, fun f hmem => ?_⟩
  rcases List.mem_cons.mp hmem with heq | hmem
  · subst heq
    exact ⟨by decide +kernel, by decide, 4, by decide +kernel⟩
  · rw [List.mem_singleton.mp hmem]
    exact ⟨by decide +kernel, by decide, 4, by decide +kernel⟩

theorem observations_safe_iff_observing :
    ObservationsSafe takingModule (observationContext takingModule observingMain) observingMain ↔
      NothingUnchecked takingModule (observationContext takingModule observingMain)
        observingMain :=
  observations_safe_iff
    (takingModule_accepted.2 observingMain (List.mem_cons_of_mem _ List.mem_cons_self))

/-- Every check lets the module through, and its main function passes the file it
observes to a method that takes it. -/
theorem observingMain_unsafe :
    verifyModule takingModule = [] ∧
      (∀ f ∈ takingModule.functions, ObservationsAccepted takingModule f) ∧
      ¬ ObservationsSafe takingModule (observationContext takingModule observingMain)
        observingMain := by
  refine ⟨takingModule_accepted.1, takingModule_accepted.2, fun hsafe => ?_⟩
  have hentry := @Walked.entry (observationContext takingModule observingMain) observingMain _
    List.mem_cons_self rfl
  have hwalked := hentry.instruction.instruction
  have huntouched := (hsafe _ _ _ hwalked).2.1
  have hcalled : (⟨⟨0⟩, []⟩ : Place ValueId) ∈ consumed takingModule
      (observationContext takingModule observingMain)
      (.value ⟨2⟩ .i64 (.protocolCall ⟨1⟩ [.i64] 0 (.extension ⟨2⟩ []) [⟨0⟩])) := by
    decide +kernel
  have hheld := huntouched _ hcalled (⟨0⟩, ⟨⟨0⟩, []⟩) (by decide +kernel)
  exact absurd hheld (by decide +kernel)

end Napitia.Verify

import Napitia.Verify.ForwardFacts

/-!
# What the verifier knows of a variant's case

A switch proves on each of its edges which case its scrutinee holds. The proofs flow along
the other edges, are intersected where paths join, and end where the storage of what they
name is written. A value that was loaded stands for the slot it was loaded from, so a proof
about one read of a slot is a proof about every read of it.
-/
namespace Napitia.Verify
open Nir

/-- A value is proven to hold a case of a variant. -/
abbrev RefinementFact := ValueId × ItemId × ℕ

abbrev RefinementFacts := Finset RefinementFact

inductive RefinementProblem where
  | payloadOutsideRefinement (block : BlockId)
  | decompositionOutsideRefinement (fact : RefinementFact) (block : BlockId)
  deriving DecidableEq, Repr

def RefinementProblem.asStr : RefinementProblem → String
  | .payloadOutsideRefinement _ => "V0024"
  | .decompositionOutsideRefinement _ _ => "V0095"

section
variable (function : Function)

/-- The slot each load reads. -/
def loadOrigin : AList fun _ : ValueId => ValueId :=
  (loadOrigins function).foldl (fun origin load => origin.insert load.1 load.2) ∅

/-- The slot a value was loaded from, or the value itself. -/
def canonicalValue (value : ValueId) : ValueId := ((loadOrigin function).lookup value).getD value

/-- The value whose storage an instruction writes. Writing a field does not change which
case of a variant is live. -/
def refinementKill : Instruction → Option ValueId
  | .store slot _ _ => some (canonicalValue function slot)
  | .storePlace place _ =>
    if place.projections = [] then some (canonicalValue function place.root) else none
  | _ => none

def forget (root : ValueId) (facts : RefinementFacts) : RefinementFacts :=
  facts.filter (·.1 ≠ root)

def applyKill (facts : RefinementFacts) (instruction : Instruction) : RefinementFacts :=
  match refinementKill function instruction with
  | none => facts
  | some root => forget root facts

/-- The slots an invoke writes on its edges. -/
def terminatorKills : Terminator → List ValueId
  | .invoke _ _ _ _ okSlot _ errTargets => okSlot :: errTargets.map (·.slot)
  | _ => []

def killThrough (block : BasicBlock) (facts : RefinementFacts) : RefinementFacts :=
  (terminatorKills block.terminator).foldl
    (fun facts slot => forget (canonicalValue function slot) facts)
    (block.instructions.foldl (applyKill function) facts)

/-- Every edge, with the facts that the edge itself proves. -/
def refinementEdges : Terminator → List (BlockId × RefinementFacts)
  | .branch target => [(target, ∅)]
  | .condBranch _ thenBlock elseBlock => [(thenBlock, ∅), (elseBlock, ∅)]
  | .switch scrutinee variant cases => cases.zipIdx.map fun (target, caseIndex) =>
    (target, {(canonicalValue function scrutinee, variant, caseIndex)})
  | .invoke _ _ _ _ _ okTarget errTargets => (okTarget, ∅) :: errTargets.map fun t => (t.target, ∅)
  | .ret _ | .raise _ => []

/-- The edges into a block. -/
def incoming (id : BlockId) : List (BlockId × RefinementFacts) :=
  function.blocks.flatMap fun block =>
    (refinementEdges function block.terminator).filterMap fun (target, generated) =>
      if target = id then some (block.id, generated) else none

/-- The facts that every edge so far has in common, with one more edge. A predecessor that
is not reachable, or has no facts yet, is passed over. -/
def meetEdge (reachable : List BlockId) (out : AList fun _ : BlockId => RefinementFacts)
    (acc : Option RefinementFacts) (edge : BlockId × RefinementFacts) : Option RefinementFacts :=
  if edge.1 ∉ reachable then acc
  else
    match out.lookup edge.1 with
    | none => acc
    | some predOut =>
      match acc with
      | none => some (predOut ∪ edge.2)
      | some previous => some (previous ∩ (predOut ∪ edge.2))

/-- The facts at the start of a block, and nothing yet while no predecessor has any. -/
def incomingFacts (reachable : List BlockId) (id : BlockId)
    (out : AList fun _ : BlockId => RefinementFacts) : Option RefinementFacts :=
  if id = entry then some ∅ else (incoming function id).foldl (meetEdge reachable out) none

/-- The facts at the start and at the end of a block. -/
def refine (reachable : List BlockId) (id : BlockId)
    (out : AList fun _ : BlockId => RefinementFacts) : Option (RefinementFacts × RefinementFacts) :=
  (function.findBlock id).bind fun block =>
    (incomingFacts function reachable id out).map fun facts =>
      (facts, killThrough function block facts)

/-- The facts each block starts from. -/
def caseRefinements (fuel : ℕ) : Option (AList fun _ : BlockId => RefinementFacts) :=
  match function.findBlock entry with
  | none => some ∅
  | some entryBlock => do
    let reachable ← Worklist.reach (successors function) fuel [entry] [entry]
    let queue := FactAnalysis.initialQueue function reachable
    let (guaranteed, _) ← Worklist.drainReading (FactAnalysis.keeps reachable)
      (successors function) (refine function reachable) fuel (AList.singleton entry ∅)
      (AList.singleton entry (killThrough function entryBlock ∅)) queue queue.toFinset
    some guaranteed

/-- A block that has no facts is proven nothing. -/
def onEntry (guaranteed : AList fun _ : BlockId => RefinementFacts) (id : BlockId) :
    RefinementFacts :=
  (guaranteed.lookup id).getD ∅

def proves (facts : RefinementFacts) (named : RefinementFact) : Bool :=
  (canonicalValue function named.1, named.2) ∈ facts

/-- The case that an instruction takes a value to hold. -/
def namedCase : Instruction → Option RefinementFact
  | .value _ _ (.variantPayload base variant case _) => some (base, variant, case)
  | .decomposeVariant value variant case _ => some (value, variant, case)
  | _ => none

def checkNamedCase (block : BlockId) (facts : RefinementFacts) :
    Instruction → List RefinementProblem
  | .value _ _ (.variantPayload base variant case _) =>
    if proves function facts (base, variant, case) then [] else [.payloadOutsideRefinement block]
  | .decomposeVariant value variant case _ =>
    if proves function facts (value, variant, case) then []
    else [.decompositionOutsideRefinement (value, variant, case) block]
  | _ => []

def checkNamedCases (block : BlockId) : List Instruction → RefinementFacts → List RefinementProblem
  | [], _ => []
  | i :: rest, proven =>
    checkNamedCase function block proven i ++ checkNamedCases block rest (applyKill function proven i)

def verifyPayloadRefinement (fuel : ℕ) : Option (List RefinementProblem) := do
  let guaranteed ← caseRefinements function fuel
  some (function.blocks.flatMap fun block =>
    checkNamedCases function block.id block.instructions (onEntry guaranteed block.id))

end

/-! ### What is left when the queue has run empty -/

section
variable {f : Function} {reachable : List BlockId} {out : AList fun _ : BlockId => RefinementFacts}
  {guaranteed : AList fun _ : BlockId => RefinementFacts} {block : BasicBlock} {id : BlockId}

theorem refinementEdges_targets (terminator : Terminator) :
    (refinementEdges f terminator).map (·.1) = (terminatorEdges terminator).map (·.1) := by
  cases terminator with
  | switch scrutinee variant cases =>
    simp only [refinementEdges, terminatorEdges, List.map_map]
    change List.map Prod.fst cases.zipIdx = List.map id cases
    rw [List.zipIdx_map_fst, List.map_id]
  | invoke callee typeArgs args evidence okSlot okTarget errTargets =>
    simp [refinementEdges, terminatorEdges, Function.comp_def]
  | _ => rfl

theorem successors_of_refinementEdge {edge : BlockId × RefinementFacts} (hblock : block ∈ f.blocks)
    (hedge : edge ∈ refinementEdges f block.terminator) : edge.1 ∈ successors f block.id := by
  have htarget : edge.1 ∈ (terminatorEdges block.terminator).map (·.1) := by
    rw [← refinementEdges_targets (f := f)]
    exact List.mem_map_of_mem hedge
  obtain ⟨⟨target, written⟩, hmem, heq⟩ := List.mem_map.mp htarget
  rw [← heq]
  exact mem_successors hblock hmem

theorem mem_incoming {edge : BlockId × RefinementFacts} (hblock : block ∈ f.blocks)
    (hedge : edge ∈ refinementEdges f block.terminator) :
    (block.id, edge.2) ∈ incoming f edge.1 :=
  List.mem_flatMap.mpr ⟨block, hblock, List.mem_filterMap.mpr ⟨edge, hedge, if_pos rfl⟩⟩

theorem successors_of_incoming {edge : BlockId × RefinementFacts} (h : edge ∈ incoming f id) :
    id ∈ successors f edge.1 := by
  obtain ⟨block, hblock, hmem⟩ := List.mem_flatMap.mp h
  obtain ⟨⟨target, generated⟩, hedge, hif⟩ := List.mem_filterMap.mp hmem
  dsimp only at hif
  split at hif
  · rename_i htarget
    cases hif
    rw [← htarget]
    exact successors_of_refinementEdge hblock hedge
  · cases hif

theorem foldl_meetEdge (edges : List (BlockId × RefinementFacts)) (acc : Option RefinementFacts) :
    (∀ previous, acc = some previous →
        ∃ facts, edges.foldl (meetEdge reachable out) acc = some facts ∧ facts ⊆ previous) ∧
      ∀ edge ∈ edges, edge.1 ∈ reachable → ∀ predOut, out.lookup edge.1 = some predOut →
        ∃ facts, edges.foldl (meetEdge reachable out) acc = some facts ∧
          facts ⊆ predOut ∪ edge.2 := by
  induction edges generalizing acc with
  | nil => exact ⟨fun previous h => ⟨previous, h, Finset.Subset.refl _⟩, by simp⟩
  | cons edge edges ih =>
    rw [List.foldl_cons]
    obtain ⟨hacc, hrest⟩ := ih (meetEdge reachable out acc edge)
    constructor
    · rintro previous rfl
      have hstep : ∃ smaller, meetEdge reachable out (some previous) edge = some smaller ∧
          smaller ⊆ previous := by
        unfold meetEdge
        split
        · exact ⟨previous, rfl, Finset.Subset.refl _⟩
        · cases out.lookup edge.1 with
          | none => exact ⟨previous, rfl, Finset.Subset.refl _⟩
          | some predOut => exact ⟨_, rfl, Finset.inter_subset_left⟩
      obtain ⟨smaller, hsmaller, hsub⟩ := hstep
      obtain ⟨facts, hfacts, hless⟩ := hacc smaller hsmaller
      exact ⟨facts, hfacts, hless.trans hsub⟩
    · intro edge' hmem hreach predOut hout
      rcases List.mem_cons.mp hmem with rfl | hmem
      · have hstep : ∃ smaller, meetEdge reachable out acc edge' = some smaller ∧
            smaller ⊆ predOut ∪ edge'.2 := by
          unfold meetEdge
          rw [if_neg (not_not.mpr hreach), hout]
          cases acc with
          | none => exact ⟨_, rfl, Finset.Subset.refl _⟩
          | some previous => exact ⟨_, rfl, Finset.inter_subset_right⟩
        obtain ⟨smaller, hsmaller, hsub⟩ := hstep
        obtain ⟨facts, hfacts, hless⟩ := hacc smaller hsmaller
        exact ⟨facts, hfacts, hless.trans hsub⟩
      · exact hrest edge' hmem hreach predOut hout

theorem refine_congr (n : BlockId) (out out' : AList fun _ : BlockId => RefinementFacts)
    (h : ∀ p, n ∈ successors f p → out.lookup p = out'.lookup p) :
    refine f reachable n out = refine f reachable n out' := by
  have hin : incomingFacts f reachable n out = incomingFacts f reachable n out' := by
    unfold incomingFacts
    split
    · rfl
    · apply List.foldl_ext
      intro acc edge hedge
      unfold meetEdge
      rw [h edge.1 (successors_of_incoming hedge)]
  unfold refine
  rw [hin]

/-- Every proof at the start of a block is there on every edge into it: the predecessor
ends with it, or the edge itself gives it. -/
structure CasesSettled (f : Function) (reachable : List BlockId)
    (guaranteed : AList fun _ : BlockId => RefinementFacts) : Prop where
  entry_mem : entry ∈ reachable
  closed : ∀ n ∈ reachable, ∀ m ∈ successors f n, m ∈ reachable
  start : onEntry guaranteed entry = ∅
  edge_subset : ∀ block next edge, f.findBlock block.id = some block → block.id ∈ reachable →
    edge ∈ refinementEdges f block.terminator → f.findBlock edge.1 = some next →
    onEntry guaranteed edge.1 ⊆ killThrough f block (onEntry guaranteed block.id) ∪ edge.2

theorem casesSettled_of_caseRefinements {fuel : ℕ} {entryBlock : BasicBlock}
    (hentry : f.findBlock entry = some entryBlock) (h : caseRefinements f fuel = some guaranteed) :
    ∃ reachable, CasesSettled f reachable guaranteed := by
  unfold caseRefinements at h
  rw [hentry] at h
  obtain ⟨reachable, hreach, h⟩ := Option.bind_eq_some_iff.mp h
  obtain ⟨⟨read, out⟩, hdrain, h⟩ := Option.bind_eq_some_iff.mp h
  cases h
  have hclosed := Worklist.reach_closed hreach fun n hn => .inl hn
  have hqueue : ∀ n ∈ FactAnalysis.initialQueue f reachable, FactAnalysis.keeps reachable n = true :=
    fun n hn => (List.mem_filter.mp hn).2
  have hentryKept : FactAnalysis.keeps reachable entry = false := by simp [FactAnalysis.keeps]
  obtain ⟨hentryRead, hentryOut⟩ := Worklist.drainReading_lookup hdrain hqueue hentryKept
  have hsingleton : ∀ facts : RefinementFacts,
      (AList.singleton entry facts : AList fun _ : BlockId => RefinementFacts).lookup entry =
        some facts :=
    fun facts => @List.dlookup_cons_eq _ (fun _ => RefinementFacts) _ [] entry facts
  rw [hsingleton] at hentryRead hentryOut
  have hrecorded := Worklist.recorded_of_drainReading refine_congr hdrain (by simp) (by
    intro n hkept
    by_cases hn : n ∈ FactAnalysis.initialQueue f reachable
    · exact .inl hn
    · right
      intro r s hs
      obtain ⟨block, hblock, -⟩ := Option.bind_eq_some_iff.mp hs
      exact absurd (List.mem_filter.mpr ⟨List.mem_map.mpr ⟨block, mem_of_findBlock hblock,
        id_of_findBlock hblock⟩, hkept⟩) hn)
  have hstart : onEntry guaranteed entry = ∅ := by simp [onEntry, hentryRead]
  -- A block that is recomputed ends with what its own facts leave.
  have hrecomputed : ∀ n block facts, n ∈ reachable → n ≠ entry → f.findBlock n = some block →
      incomingFacts f reachable n out = some facts →
      onEntry guaranteed n = facts ∧ out.lookup n = some (killThrough f block facts) := by
    intro n block facts hn hne hblock hfacts
    have hkept : FactAnalysis.keeps reachable n = true := by simp [FactAnalysis.keeps, hne, hn]
    have hrefine : refine f reachable n out = some (facts, killThrough f block facts) := by
      simp [refine, hblock, hfacts]
    obtain ⟨hread, hout⟩ := hrecorded n hkept facts _ hrefine
    exact ⟨by simp [onEntry, hread], hout⟩
  have hincoming : ∀ (b : BasicBlock) (edge : BlockId × RefinementFacts) (predOut : RefinementFacts),
      b ∈ f.blocks → b.id ∈ reachable → edge ∈ refinementEdges f b.terminator →
      out.lookup b.id = some predOut → edge.1 ≠ entry →
      ∃ facts, incomingFacts f reachable edge.1 out = some facts ∧ facts ⊆ predOut ∪ edge.2 := by
    intro b edge predOut hb hid hedge hout hne
    unfold incomingFacts
    rw [if_neg hne]
    exact (foldl_meetEdge (incoming f edge.1) none).2 _ (mem_incoming hb hedge) hid predOut hout
  -- Every block that is found from the entry has been recomputed, nearest first.
  have hfound := Worklist.reach_induction (P := fun n => n ∈ reachable ∧
      ∀ block, f.findBlock n = some block →
        out.lookup n = some (killThrough f block (onEntry guaranteed n))) hreach (by
    rintro n ⟨hn, hends⟩ m hm
    refine ⟨hclosed.2 n hn m hm, fun block hblock => ?_⟩
    by_cases hne : m = entry
    · subst hne
      rw [hentry] at hblock
      cases hblock
      rw [hstart, hentryOut]
    · obtain ⟨b, hb, htarget⟩ := List.mem_flatMap.mp hm
      obtain ⟨hbmem, hbid⟩ := List.mem_filter.mp hb
      obtain rfl : b.id = n := by simpa using hbid
      rw [← refinementEdges_targets (f := f)] at htarget
      obtain ⟨edge, hedge, rfl⟩ := List.mem_map.mp htarget
      obtain ⟨first, hfirst⟩ := Option.isSome_iff_exists.mp
        (findBlock_isSome (List.mem_map_of_mem (f := (·.id)) hbmem))
      obtain ⟨facts, hfacts, -⟩ := hincoming b edge _ hbmem hn hedge (hends first hfirst) hne
      obtain ⟨hread, hout⟩ := hrecomputed edge.1 block facts (hclosed.2 _ hn _ hm) hne hblock hfacts
      rw [hread, hout])
    (by
      intro n hn
      obtain rfl := List.mem_singleton.mp hn
      refine ⟨hclosed.1 entry List.mem_cons_self, fun block hblock => ?_⟩
      rw [hentry] at hblock
      cases hblock
      rw [hstart, hentryOut])
    (fun n hn => hn)
  refine ⟨reachable, hclosed.1 entry List.mem_cons_self, hclosed.2, hstart, ?_⟩
  intro block next edge hblock hid hedge hnext
  by_cases hne : edge.1 = entry
  · rw [hne, hstart]
    exact Finset.empty_subset _
  · have hbmem := mem_of_findBlock hblock
    obtain ⟨facts, hfacts, hsub⟩ := hincoming block edge _ hbmem hid hedge
      ((hfound block.id hid).2 block hblock) hne
    have htarget := hclosed.2 _ hid _ (successors_of_refinementEdge hbmem hedge)
    rw [(hrecomputed edge.1 next facts htarget hne hnext hfacts).1]
    exact hsub

theorem checkNamedCases_eq_nil {id : BlockId} {first rest : List Instruction} {i : Instruction}
    {facts : RefinementFacts} (h : checkNamedCases f id (first ++ i :: rest) facts = []) :
    checkNamedCase f id (first.foldl (applyKill f) facts) i = [] := by
  induction first generalizing facts with
  | nil => exact (List.append_eq_nil_iff.mp h).1
  | cons j first ih => exact ih (List.append_eq_nil_iff.mp h).2

theorem proves_of_checkNamedCase {facts : RefinementFacts} {i : Instruction}
    {named : RefinementFact} (h : checkNamedCase f id facts i = [])
    (hnamed : namedCase i = some named) : proves f facts named = true := by
  have hproves : ∀ (fact : RefinementFact) (problem : RefinementProblem),
      (if proves f facts fact then [] else [problem]) = [] → proves f facts fact = true := by
    intro fact problem hnil
    by_contra hnot
    rw [if_neg hnot] at hnil
    cases hnil
  cases i with
  | value result ty kind =>
    cases kind with
    | variantPayload base variant case index =>
      cases hnamed
      exact hproves _ _ h
    | _ => cases hnamed
  | decomposeVariant value variant case taken =>
    cases hnamed
    exact hproves _ _ h
  | _ => cases hnamed

theorem mem_applyKill {facts : RefinementFacts} {i : Instruction} {fact : RefinementFact}
    (h : fact ∈ applyKill f facts i) :
    fact ∈ facts ∧ refinementKill f i ≠ some fact.1 := by
  unfold applyKill at h
  split at h
  · rename_i hnone
    exact ⟨h, by simp [hnone]⟩
  · rename_i root hroot
    obtain ⟨hmem, hne⟩ := Finset.mem_filter.mp h
    exact ⟨hmem, fun heq => hne (Option.some.inj (heq.symm.trans hroot))⟩

theorem mem_killThrough {facts : RefinementFacts} {fact : RefinementFact}
    (h : fact ∈ killThrough f block facts) :
    fact ∈ block.instructions.foldl (applyKill f) facts ∧
      ∀ slot ∈ terminatorKills block.terminator, canonicalValue f slot ≠ fact.1 := by
  unfold killThrough at h
  generalize block.instructions.foldl (applyKill f) facts = behind at h ⊢
  generalize terminatorKills block.terminator = slots at h ⊢
  induction slots generalizing behind with
  | nil => exact ⟨h, by simp⟩
  | cons slot slots ih =>
    obtain ⟨hmem, hrest⟩ := ih _ h
    obtain ⟨hmem, hne⟩ := Finset.mem_filter.mp hmem
    refine ⟨hmem, fun other hother => ?_⟩
    rcases List.mem_cons.mp hother with rfl | hother
    · exact fun heq => hne heq.symm
    · exact hrest other hother

theorem mem_foldl_applyKill {first : List Instruction} {facts : RefinementFacts}
    {fact : RefinementFact} (h : fact ∈ first.foldl (applyKill f) facts) : fact ∈ facts := by
  induction first generalizing facts with
  | nil => exact h
  | cons i first ih => exact (mem_applyKill (ih h)).1

end

end Napitia.Verify

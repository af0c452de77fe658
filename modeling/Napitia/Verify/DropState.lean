import Napitia.Verify.ForwardFacts

/-!
# Values that are dropped twice

A value that is dropped on some way to a second drop of it is reported, unless its
definition has been run again in between.
-/
namespace Napitia.Verify
open Nir

/-- The values that some instruction of the function drops. -/
def droppedValues (function : Function) : List ValueId :=
  (function.blocks.flatMap (·.instructions)).filterMap fun
    | .drop value => some value
    | _ => none

/-- Every edge carries the same: what it writes is not looked at. -/
def dropAnalysis (function : Function) : FactAnalysis where
  after facts
    | .value result _ _ => if result ∈ droppedValues function then facts.erase result else facts
    | .drop value => if value ∈ droppedValues function then insert value facts else facts
    | _ => facts
  report facts
    | .drop value => if value ∈ droppedValues function ∧ value ∈ facts then [value] else []
    | _ => []
  edge _ facts := facts
  join previous incoming := previous ∪ incoming
  initial := ∅

def verifyDropState (function : Function) (fuel : ℕ) : Option (List (ValueId × BlockId)) :=
  if droppedValues function = [] then some [] else (dropAnalysis function).verify function fuel

/-- A value has been dropped, and its definition has not been run since. -/
def DroppedSince (value : ValueId) (events : List Event) : Prop :=
  ∃ later earlier, events = later ++ .ran (.drop value) :: earlier ∧
    ∀ ty kind, .ran (.value value ty kind) ∉ later

section
variable {f : Function} {events : List Event} {value : ValueId}

theorem droppedSince_cons {event : Event} (h : DroppedSince value (event :: events)) :
    event = .ran (.drop value) ∨
      (DroppedSince value events ∧ ∀ ty kind, event ≠ .ran (.value value ty kind)) := by
  obtain ⟨later, earlier, heq, hnone⟩ := h
  cases later with
  | nil =>
    cases heq
    exact .inl rfl
  | cons first later =>
    cases heq
    exact .inr ⟨⟨later, earlier, rfl, fun ty kind hmem =>
      hnone ty kind (List.mem_cons_of_mem _ hmem)⟩, fun ty kind heq =>
      hnone ty kind (heq ▸ List.mem_cons_self)⟩

/-- Whatever has been dropped the analysis has for dropped. -/
def AllDropped (f : Function) (events : List Event) (facts : Finset ValueId) : Prop :=
  ∀ value ∈ droppedValues f, DroppedSince value events → value ∈ facts

theorem AllDropped.after {facts : Finset ValueId} (h : AllDropped f events facts)
    (i : Instruction) : AllDropped f (.ran i :: events) ((dropAnalysis f).after facts i) := by
  intro value hvalue hdropped
  rcases droppedSince_cons hdropped with heq | ⟨hearlier, hnot⟩
  · cases heq
    simp only [dropAnalysis, if_pos hvalue]
    exact Finset.mem_insert_self value facts
  · have hmem := h value hvalue hearlier
    cases i with
    | value result ty kind =>
      have hne : value ≠ result := by
        rintro rfl
        exact hnot ty kind rfl
      simp only [dropAnalysis]
      split
      · exact Finset.mem_erase.mpr ⟨hne, hmem⟩
      · exact hmem
    | drop other =>
      simp only [dropAnalysis]
      split
      · exact Finset.mem_insert_of_mem hmem
      · exact hmem
    | store | decomposeVariant | storePlace | endObserve => exact hmem

theorem mem_droppedValues {block : BasicBlock} {rest first : List Instruction}
    (hblock : block ∈ f.blocks) (h : block.instructions = first ++ .drop value :: rest) :
    value ∈ droppedValues f :=
  List.mem_filterMap.mpr ⟨.drop value, List.mem_flatMap.mpr ⟨block, hblock, by rw [h]; simp⟩, rfl⟩

end

/-- On no path of a function that is accepted is a value dropped twice without its
definition being run again in between, when no edge names the entry block: such an edge is
rejected by a check of its own. -/
theorem never_dropped_twice (f : Function) (fuel : ℕ) (h : verifyDropState f fuel = some [])
    (hentries : checkEntryEdges f = []) (events : List Event) (block : BasicBlock)
    (rest : List Instruction) (value : ValueId) (hpath : Path f events block (.drop value :: rest))
    (later earlier : List Event) (hevents : events = later ++ .ran (.drop value) :: earlier) :
    ∃ ty kind, .ran (.value value ty kind) ∈ later := by
  by_contra hnone
  push Not at hnone
  obtain ⟨entryBlock, hentry⟩ := hpath.entry_exists
  unfold verifyDropState at h
  have hdropped : value ∈ droppedValues f := by
    obtain ⟨hblock, first, hfirst⟩ := hpath.block_of_rest
    exact mem_droppedValues hblock hfirst
  rw [if_neg (List.ne_nil_of_mem hdropped)] at h
  obtain ⟨reachable, out, hsettled, hreports⟩ := settled_of_verify hentry h
  obtain ⟨first, hfirst, hall⟩ := hsettled.path_carries (Q := AllDropped f)
    (by rintro value - ⟨later, earlier, hnil, -⟩; simp at hnil)
    (fun _ _ i _ _ _ hfacts => hfacts.after i)
    (fun block next written events hid hblock hedge hfacts => by
      have hnext : next ≠ entry := by
        rintro rfl
        have hnone := List.flatMap_eq_nil_iff.mp hentries block (mem_of_findBlock hblock)
        have hmem : (entry, written) ∈ (terminatorEdges block.terminator).filter (·.1 = entry) :=
          List.mem_filter.mpr ⟨hedge, by simp⟩
        rw [List.map_eq_nil_iff.mp hnone] at hmem
        cases hmem
      have hsub := hsettled.inFacts_edge (r := fun s t => t ⊆ s) Finset.Subset.refl
        (fun hab hbc => hbc.trans hab) (fun _ _ => Finset.subset_union_left)
        (fun _ _ => Finset.subset_union_right) hnext hid hblock hedge
      intro value hvalue hdropped
      rcases droppedSince_cons hdropped with heq | ⟨hearlier, -⟩
      · cases heq
      · exact hsub (hfacts value hvalue hearlier)) hpath
  obtain ⟨hid, hblock⟩ := hsettled.path_reachable hpath
  have hsilent := report_eq_nil hreports (mem_of_findBlock hblock) hid hfirst
  have hfact := hall value hdropped ⟨later, earlier, hevents, hnone⟩
  simp only [dropAnalysis] at hsilent
  rw [if_pos ⟨hdropped, hfact⟩] at hsilent
  cases hsilent

/-- The entry drops its parameter and branches to itself. -/
def dropsAgain : Function where
  id := ⟨0⟩
  name := ⟨0⟩
  typeParams := []
  requirements := []
  params := [⟨⟨0⟩, .named ⟨1⟩, true⟩]
  returnType := .unit
  raises := []
  blocks := [⟨⟨0⟩, [.drop ⟨0⟩], .branch ⟨0⟩⟩]

/-- It is accepted, and the second time round it drops the parameter again. -/
theorem dropsAgain_accepted : verifyDropState dropsAgain 8 = some [] ∧
    ∃ events block rest later earlier, Path dropsAgain events block (.drop ⟨0⟩ :: rest) ∧
      events = later ++ .ran (.drop ⟨0⟩) :: earlier ∧
      ∀ ty kind, .ran (.value ⟨0⟩ ty kind) ∉ later := by
  have hentry : Path dropsAgain [] ⟨⟨0⟩, [.drop ⟨0⟩], .branch ⟨0⟩⟩ [.drop ⟨0⟩] := .entry rfl
  have hedge : (entry, none) ∈ terminatorEdges (.branch ⟨0⟩) := List.mem_singleton_self _
  have hagain := Path.edge hentry.instruction hedge rfl
  exact ⟨by decide, _, _, _, [.took none], [], hagain, rfl, by simp⟩

/-- A loop whose body makes a value and drops it. -/
def dropsEachTime : Function where
  id := ⟨0⟩
  name := ⟨0⟩
  typeParams := []
  requirements := []
  params := []
  returnType := .unit
  raises := []
  blocks := [⟨⟨0⟩, [], .branch ⟨1⟩⟩,
    ⟨⟨1⟩, [.value ⟨0⟩ (.named ⟨1⟩) (.recordCreate ⟨1⟩ [] []), .drop ⟨0⟩], .branch ⟨1⟩⟩]

theorem never_dropped_twice_eachTime :
    ∃ ty kind, Event.ran (.value ⟨0⟩ ty kind) ∈
      [Event.ran (.value ⟨0⟩ (.named ⟨1⟩) (.recordCreate ⟨1⟩ [] [])), .took none] := by
  have hentry : Path dropsEachTime [] ⟨⟨0⟩, [], .branch ⟨1⟩⟩ [] := .entry rfl
  have hedge : ((⟨1⟩ : BlockId), none) ∈ terminatorEdges (.branch ⟨1⟩) :=
    List.mem_singleton_self _
  have hfirst := Path.edge hentry hedge rfl
  have hsecond := Path.edge hfirst.instruction.instruction hedge rfl
  exact never_dropped_twice dropsEachTime 20 (by decide) (by decide) _ _ _ ⟨0⟩ hsecond.instruction
    [.ran (.value ⟨0⟩ (.named ⟨1⟩) (.recordCreate ⟨1⟩ [] [])), .took none] _ rfl

/-- The analysis ends on every function. -/
theorem verifyDropState_returns (f : Function) : ∃ fuel, (verifyDropState f fuel).isSome := by
  unfold verifyDropState
  by_cases hnone : droppedValues f = []
  · exact ⟨0, by rw [if_pos hnone]; rfl⟩
  · have hmonotone : (dropAnalysis f).Monotone f (· ⊆ ·) (droppedValues f).toFinset := by
      constructor
      · exact Finset.Subset.refl
      · exact fun hab hbc => hab.trans hbc
      · intro i s t hst
        cases i with
        | value result ty kind =>
          simp only [dropAnalysis]
          split
          · exact Finset.erase_subset_erase _ hst
          · exact hst
        | drop value =>
          simp only [dropAnalysis]
          split
          · exact Finset.insert_subset_insert _ hst
          · exact hst
        | store | decomposeVariant | storePlace | endObserve => exact hst
      · intro _ s t hst
        exact hst
      · exact fun hs ht => Finset.union_subset_union hs ht
      · exact fun s _ => Finset.empty_subset s
      · intro i s hs
        cases i with
        | value result ty kind =>
          simp only [dropAnalysis]
          split
          · exact (Finset.erase_subset _ _).trans hs
          · exact hs
        | drop value =>
          simp only [dropAnalysis]
          split
          · rename_i hmem
            exact Finset.insert_subset (List.mem_toFinset.mpr hmem) hs
          · exact hs
        | store | decomposeVariant | storePlace | endObserve => exact hs
      · exact fun _ _ _ _ s hs => hs
      · exact fun s hs t ht => Finset.union_subset hs ht
      · exact Finset.empty_subset _
    have hheight : ∀ s t, s ⊆ (droppedValues f).toFinset → t ⊆ (droppedValues f).toFinset →
        s ⊆ t → s ≠ t → s.card < t.card :=
      fun s t _ _ hst hne => Finset.card_lt_card (hst.ssubset_of_ne hne)
    have hbound : ∀ s ⊆ (droppedValues f).toFinset, s.card ≤ (droppedValues f).toFinset.card :=
      fun s hs => Finset.card_le_card hs
    obtain ⟨fuel, hfuel⟩ := verify_returns hmonotone hheight hbound
    exact ⟨fuel, by rwa [if_neg hnone]⟩

end Napitia.Verify

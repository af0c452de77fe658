import Napitia.Verify.ForwardFacts

/-!
# Slots that an invoke writes

A slot that some `invoke` writes is written on one of its edges only. A load of it has to
come behind a write on every path.
-/
namespace Napitia.Verify
open Nir

/-- The slots that some invoke of the function writes. -/
def guardedSlots (function : Function) : List ValueId :=
  function.blocks.flatMap fun block => (terminatorEdges block.terminator).filterMap (·.2)

def invokeSlotAnalysis (function : Function) : FactAnalysis where
  after facts
    | .store slot _ _ => if slot ∈ guardedSlots function then insert slot facts else facts
    | _ => facts
  report facts
    | .value _ _ (.load slot) =>
      if slot ∈ guardedSlots function ∧ slot ∉ facts then [slot] else []
    | _ => []
  edge written facts := written.elim facts (insert · facts)
  join previous incoming := previous ∩ incoming
  initial := (guardedSlots function).toFinset

def verifyInvokeSlotInitialization (function : Function) (fuel : ℕ) :
    Option (List (ValueId × BlockId)) :=
  if guardedSlots function = [] then some [] else (invokeSlotAnalysis function).verify function fuel

/-- The slot that an event writes. -/
def Event.writes : Event → Option ValueId
  | .ran (.store slot _ _) => some slot
  | .ran _ => none
  | .took written => written

section
variable {f : Function} {events : List Event} {slot : ValueId}

theorem mem_guardedSlots {block : BasicBlock} {target : BlockId} (hblock : block ∈ f.blocks)
    (hedge : (target, some slot) ∈ terminatorEdges block.terminator) : slot ∈ guardedSlots f :=
  List.mem_flatMap.mpr ⟨block, hblock, List.mem_filterMap.mpr ⟨_, hedge, rfl⟩⟩

/-- What the analysis has for written has been written. -/
def AllWritten (events : List Event) (facts : Finset ValueId) : Prop :=
  ∀ slot ∈ facts, ∃ event ∈ events, event.writes = some slot

theorem AllWritten.cons {facts facts' : Finset ValueId} (h : AllWritten events facts) (event : Event)
    (hfacts : ∀ slot ∈ facts', slot ∈ facts ∨ event.writes = some slot) :
    AllWritten (event :: events) facts' := by
  intro slot hslot
  rcases hfacts slot hslot with hold | hnew
  · obtain ⟨earlier, hmem, hwrites⟩ := h slot hold
    exact ⟨earlier, List.mem_cons_of_mem _ hmem, hwrites⟩
  · exact ⟨event, List.mem_cons_self, hnew⟩

theorem AllWritten.after {facts : Finset ValueId} (h : AllWritten events facts) (i : Instruction) :
    AllWritten (.ran i :: events) ((invokeSlotAnalysis f).after facts i) := by
  apply h.cons
  intro slot hslot
  cases i with
  | store target value mode =>
    simp only [invokeSlotAnalysis] at hslot
    split at hslot
    · rcases Finset.mem_insert.mp hslot with rfl | hold
      · exact .inr rfl
      · exact .inl hold
    · exact .inl hslot
  | value | drop | decomposeVariant | storePlace | endObserve => exact .inl hslot

theorem AllWritten.took {facts facts' : Finset ValueId} {written : Option ValueId}
    (h : AllWritten events facts) (hsub : facts' ⊆ (invokeSlotAnalysis f).edge written facts) :
    AllWritten (.took written :: events) facts' := by
  apply h.cons
  intro slot hslot
  have hmem := hsub hslot
  cases written with
  | none => exact .inl hmem
  | some target =>
    rcases Finset.mem_insert.mp hmem with rfl | hold
    · exact .inr rfl
    · exact .inl hold

/-- A load that comes first in what a path has still to run is one of a slot that the
analysis has for written. -/
theorem load_in_facts {fuel : ℕ} {block : BasicBlock} {rest : List Instruction} {result : ValueId}
    {ty : Ty} (h : verifyInvokeSlotInitialization f fuel = some [])
    (hpath : Path f events block (.value result ty (.load slot) :: rest))
    (hslot : slot ∈ guardedSlots f) : ∃ event ∈ events, event.writes = some slot := by
  unfold verifyInvokeSlotInitialization at h
  rw [if_neg (List.ne_nil_of_mem hslot)] at h
  obtain ⟨entryBlock, hentry⟩ := hpath.entry_exists
  obtain ⟨reachable, out, hsettled, hreports⟩ := settled_of_verify hentry h
  obtain ⟨first, hfirst, hwritten⟩ := hsettled.path_carries (Q := AllWritten) (by simp [AllWritten])
    (fun _ _ i _ _ _ hfacts => hfacts.after i)
    (fun block next written events hid hblock hedge hfacts => by
      apply hfacts.took
      by_cases hnext : next = entry
      · rw [hnext, FactAnalysis.inFacts, if_pos rfl]
        exact Finset.empty_subset _
      · exact hsettled.inFacts_edge (r := (· ⊆ ·)) Finset.Subset.refl Finset.Subset.trans
          (fun _ _ => Finset.inter_subset_left) (fun _ _ => Finset.inter_subset_right) hnext hid
          hblock hedge) hpath
  obtain ⟨hid, hblock⟩ := hsettled.path_reachable hpath
  have hsilent := report_eq_nil hreports (mem_of_findBlock hblock) hid hfirst
  apply hwritten slot
  by_contra hnot
  simp only [invokeSlotAnalysis] at hsilent
  rw [if_pos ⟨hslot, hnot⟩] at hsilent
  cases hsilent

end

/-- On every path of a function that is accepted, a load of a slot that an invoke writes
comes behind a write of it. An edge of an invoke writes its own slot only: a load of
another slot further on comes behind another write. -/
theorem loads_initialized (f : Function) (fuel : ℕ)
    (h : verifyInvokeSlotInitialization f fuel = some []) (events : List Event) (block : BasicBlock)
    (rest : List Instruction) (result slot : ValueId) (ty : Ty)
    (hpath : Path f events block (.value result ty (.load slot) :: rest))
    (hslot : slot ∈ guardedSlots f) :
    (∃ event ∈ events, event.writes = some slot) ∧
      ∀ later earlier written, events = later ++ .took written :: earlier → written ≠ some slot →
        ∃ event ∈ later ++ earlier, event.writes = some slot := by
  obtain ⟨event, hmem, hwrites⟩ := load_in_facts h hpath hslot
  refine ⟨⟨event, hmem, hwrites⟩, ?_⟩
  rintro later earlier written rfl hne
  refine ⟨event, ?_, hwrites⟩
  rcases List.mem_append.mp hmem with hlater | hhere
  · exact List.mem_append_left _ hlater
  · rcases List.mem_cons.mp hhere with rfl | hearlier
    · exact absurd hwrites hne
    · exact List.mem_append_right _ hearlier

/-- The success slot of an invoke is loaded behind its success edge. -/
def loadsResult : Function where
  id := ⟨0⟩
  name := ⟨0⟩
  typeParams := []
  requirements := []
  params := []
  returnType := .bool
  raises := []
  blocks := [⟨⟨0⟩, [], .invoke ⟨7⟩ [] [] [] ⟨0⟩ ⟨1⟩ [⟨⟨8⟩, ⟨1⟩, ⟨2⟩⟩]⟩,
    ⟨⟨1⟩, [.value ⟨2⟩ .bool (.load ⟨0⟩)], .ret (some ⟨2⟩)⟩,
    ⟨⟨2⟩, [.value ⟨3⟩ (.named ⟨8⟩) (.load ⟨1⟩)], .raise ⟨3⟩⟩]

theorem loads_initialized_result :
    (∃ event ∈ [Event.took (some ⟨0⟩)], event.writes = some ⟨0⟩) ∧
      ∀ later earlier written, [Event.took (some ⟨0⟩)] = later ++ .took written :: earlier →
        written ≠ some ⟨0⟩ → ∃ event ∈ later ++ earlier, event.writes = some ⟨0⟩ := by
  have hentry : Path loadsResult [] ⟨⟨0⟩, [],
      .invoke ⟨7⟩ [] [] [] ⟨0⟩ ⟨1⟩ [⟨⟨8⟩, ⟨1⟩, ⟨2⟩⟩]⟩ [] := .entry rfl
  have hedge : ((⟨1⟩ : BlockId), some (⟨0⟩ : ValueId)) ∈
      terminatorEdges (.invoke ⟨7⟩ [] [] [] ⟨0⟩ ⟨1⟩ [⟨⟨8⟩, ⟨1⟩, ⟨2⟩⟩]) := List.mem_cons_self
  exact loads_initialized loadsResult 20 (by decide) _ _ [] ⟨2⟩ ⟨0⟩ .bool
    (Path.edge hentry hedge rfl) (by decide)

/-- The analysis ends on every function. -/
theorem verifyInvokeSlotInitialization_returns (f : Function) :
    ∃ fuel, (verifyInvokeSlotInitialization f fuel).isSome := by
  unfold verifyInvokeSlotInitialization
  by_cases hnone : guardedSlots f = []
  · exact ⟨0, by rw [if_pos hnone]; rfl⟩
  · have hmonotone : (invokeSlotAnalysis f).Monotone f (fun s t => t ⊆ s)
        (guardedSlots f).toFinset := by
      constructor
      · exact Finset.Subset.refl
      · exact fun hab hbc => hbc.trans hab
      · intro i s t hst
        cases i with
        | store target value mode =>
          simp only [invokeSlotAnalysis]
          split
          · exact Finset.insert_subset_insert _ hst
          · exact hst
        | value | drop | decomposeVariant | storePlace | endObserve => exact hst
      · intro written s t hst
        cases written with
        | none => exact hst
        | some slot => exact Finset.insert_subset_insert _ hst
      · exact fun hs ht => Finset.inter_subset_inter hs ht
      · exact fun s hs => hs
      · intro i s hs
        cases i with
        | store target value mode =>
          simp only [invokeSlotAnalysis]
          split
          · rename_i hmem
            exact Finset.insert_subset (List.mem_toFinset.mpr hmem) hs
          · exact hs
        | value | drop | decomposeVariant | storePlace | endObserve => exact hs
      · rintro block hblock ⟨target, written⟩ hedge s hs
        cases written with
        | none => exact hs
        | some slot =>
          exact Finset.insert_subset (List.mem_toFinset.mpr (mem_guardedSlots hblock hedge)) hs
      · exact fun s hs t _ => Finset.inter_subset_left.trans hs
      · exact Finset.Subset.refl _
    have hheight : ∀ s t, s ⊆ (guardedSlots f).toFinset → t ⊆ (guardedSlots f).toFinset →
        t ⊆ s → s ≠ t →
        (guardedSlots f).toFinset.card - s.card < (guardedSlots f).toFinset.card - t.card := by
      intro s t hs _ hst hne
      have hlt := Finset.card_lt_card (hst.ssubset_of_ne hne.symm)
      have hle := Finset.card_le_card hs
      omega
    have hbound : ∀ s ⊆ (guardedSlots f).toFinset,
        (guardedSlots f).toFinset.card - s.card ≤ (guardedSlots f).toFinset.card :=
      fun s _ => Nat.sub_le _ _
    obtain ⟨fuel, hfuel⟩ := verify_returns hmonotone hheight hbound
    exact ⟨fuel, by rwa [if_neg hnone]⟩

end Napitia.Verify

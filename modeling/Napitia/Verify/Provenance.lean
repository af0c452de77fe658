import Mathlib.Data.Finset.Basic
import Mathlib.Order.Bounds.Basic
import Napitia.Nir

/-!
# Joining what the ownership pass knows

Where two edges meet, the pass keeps of every location what holds on both: whether it was
written at all, which resources it can denote, which of those are destroyed, and whether it
owns them. A location says less the higher it stands in the order below, and a join is the
least location above the two that meet.
-/
namespace Napitia.Verify
open Nir

inductive Role where
  | owned
  | observed
  deriving DecidableEq, Repr

/-- What a location that was written can denote. -/
structure Provenance where
  /-- The resources it might currently denote. -/
  ids : Finset ValueId
  /-- Those of them destroyed on a path that also gave the location that identity. -/
  dead : Finset ValueId
  role : Role
  deriving DecidableEq

/-- A location that has just received these. -/
def Provenance.live (ids : Finset ValueId) (role : Role) : Provenance := ⟨ids, ∅, role⟩

inductive LocationState where
  /-- Written on no path that comes here. -/
  | uninitialized
  /-- Written on every one. -/
  | initialized (provenance : Provenance)
  /-- Written on some and not on others. -/
  | maybeUninitialized
  deriving DecidableEq

def mergeLocation : LocationState → LocationState → LocationState
  | .uninitialized, .uninitialized => .uninitialized
  | .maybeUninitialized, _ | _, .maybeUninitialized => .maybeUninitialized
  | .initialized _, .uninitialized | .uninitialized, .initialized _ => .maybeUninitialized
  | .initialized a, .initialized b =>
    .initialized {
      ids := a.ids ∪ b.ids
      dead := a.dead ∪ b.dead
      role := if a.role = .owned ∧ b.role = .owned then .owned else .observed }

/-- The locations that something is known of. -/
@[ext]
structure ProvenanceMap where
  get : ValueId → Option LocationState

namespace ProvenanceMap

/-- A location that nothing is known of was never written. -/
def state (a : ProvenanceMap) (key : ValueId) : LocationState := (a.get key).getD .uninitialized

def insert (a : ProvenanceMap) (key : ValueId) (state : LocationState) : ProvenanceMap :=
  ⟨Function.update a.get key (some state)⟩

end ProvenanceMap

def mergeProvenance (a b : ProvenanceMap) : ProvenanceMap where
  get key :=
    if (a.get key).isSome ∨ (b.get key).isSome then
      some (mergeLocation (a.state key) (b.state key))
    else none

/-! ### What says less -/

instance : LE Role := ⟨fun a b => a = .owned ∨ b = .observed⟩

instance : LE Provenance := ⟨fun a b => a.ids ⊆ b.ids ∧ a.dead ⊆ b.dead ∧ a.role ≤ b.role⟩

/-- That a location was written on some paths only says the least of it. -/
inductive LocationState.AtMost : LocationState → LocationState → Prop
  | uninitialized : AtMost .uninitialized .uninitialized
  | initialized {a b : Provenance} (h : a ≤ b) : AtMost (.initialized a) (.initialized b)
  | maybe (a : LocationState) : AtMost a .maybeUninitialized

instance : LE LocationState := ⟨LocationState.AtMost⟩

/-- Where more is known of a location, it is known to have been written less. -/
instance : LE ProvenanceMap :=
  ⟨fun a b => ∀ key, ((a.get key).isSome → (b.get key).isSome) ∧ a.state key ≤ b.state key⟩

theorem Role.le_def {a b : Role} : a ≤ b ↔ a = .owned ∨ b = .observed := Iff.rfl

instance : PartialOrder Role where
  le_refl a := by cases a <;> simp [Role.le_def]
  le_trans a b c hab hbc := by
    cases a <;> cases b <;> cases c <;> simp_all [Role.le_def]
  le_antisymm a b hab hba := by
    cases a <;> cases b <;> simp_all [Role.le_def]

instance : PartialOrder Provenance where
  le_refl a := ⟨subset_rfl, subset_rfl, le_rfl⟩
  le_trans a b c hab hbc := ⟨hab.1.trans hbc.1, hab.2.1.trans hbc.2.1, hab.2.2.trans hbc.2.2⟩
  le_antisymm a b hab hba := by
    obtain ⟨ids, dead, role⟩ := a
    obtain ⟨ids', dead', role'⟩ := b
    have hids : ids = ids' := hab.1.antisymm hba.1
    have hdead : dead = dead' := hab.2.1.antisymm hba.2.1
    have hrole : role = role' := le_antisymm hab.2.2 hba.2.2
    rw [hids, hdead, hrole]

instance : PartialOrder LocationState where
  le_refl a := by
    cases a with
    | uninitialized => exact .uninitialized
    | initialized p => exact .initialized le_rfl
    | maybeUninitialized => exact .maybe _
  le_trans a b c hab hbc := by
    cases hbc with
    | uninitialized => exact hab
    | maybe => exact .maybe a
    | initialized hbc =>
      cases hab with
      | initialized hab => exact .initialized (hab.trans hbc)
  le_antisymm a b hab hba := by
    cases hab with
    | uninitialized => rfl
    | initialized hab =>
      cases hba with
      | initialized hba => rw [le_antisymm hab hba]
    | maybe =>
      cases hba with
      | maybe => rfl

instance : PartialOrder ProvenanceMap where
  le_refl a key := ⟨id, le_rfl⟩
  le_trans a b c hab hbc key := ⟨(hbc key).1 ∘ (hab key).1, (hab key).2.trans (hbc key).2⟩
  le_antisymm a b hab hba := by
    ext1
    funext key
    have hsome : (a.get key).isSome ↔ (b.get key).isSome := ⟨(hab key).1, (hba key).1⟩
    have hstate : a.state key = b.state key := le_antisymm (hab key).2 (hba key).2
    unfold ProvenanceMap.state at hstate
    cases ha : a.get key <;> cases hb : b.get key <;> simp_all

/-! ### Joins -/

instance : SemilatticeSup LocationState where
  sup := mergeLocation
  le_sup_left a b := by
    cases a with
    | uninitialized =>
      cases b with
      | uninitialized => exact .uninitialized
      | initialized q => exact .maybe _
      | maybeUninitialized => exact .maybe _
    | initialized p =>
      cases b with
      | uninitialized => exact .maybe _
      | maybeUninitialized => exact .maybe _
      | initialized q =>
        refine .initialized ⟨Finset.subset_union_left, Finset.subset_union_left, ?_⟩
        by_cases h : p.role = .owned
        · exact Or.inl h
        · exact Or.inr (if_neg fun hboth => h hboth.1)
    | maybeUninitialized => exact .maybe _
  le_sup_right a b := by
    cases b with
    | uninitialized =>
      cases a with
      | uninitialized => exact .uninitialized
      | initialized q => exact .maybe _
      | maybeUninitialized => exact .maybe _
    | initialized q =>
      cases a with
      | uninitialized => exact .maybe _
      | maybeUninitialized => exact .maybe _
      | initialized p =>
        refine .initialized ⟨Finset.subset_union_right, Finset.subset_union_right, ?_⟩
        by_cases h : q.role = .owned
        · exact Or.inl h
        · exact Or.inr (if_neg fun hboth => h hboth.2)
    | maybeUninitialized =>
      cases a <;> exact .maybe _
  sup_le a b c hac hbc := by
    cases hac with
    | uninitialized =>
      cases hbc with
      | uninitialized => exact .uninitialized
    | maybe => exact .maybe _
    | initialized hac =>
      cases hbc with
      | initialized hbc =>
        refine .initialized ⟨Finset.union_subset hac.1 hbc.1,
          Finset.union_subset hac.2.1 hbc.2.1, ?_⟩
        rcases hac.2.2 with hp | hobserved
        · rcases hbc.2.2 with hq | hobserved
          · exact Or.inl (if_pos ⟨hp, hq⟩)
          · exact Or.inr hobserved
        · exact Or.inr hobserved

@[simp] theorem isSome_mergeProvenance (a b : ProvenanceMap) (key : ValueId) :
    ((mergeProvenance a b).get key).isSome ↔ (a.get key).isSome ∨ (b.get key).isSome := by
  by_cases h : (a.get key).isSome ∨ (b.get key).isSome <;> simp [mergeProvenance, h]

@[simp] theorem state_mergeProvenance (a b : ProvenanceMap) (key : ValueId) :
    (mergeProvenance a b).state key = mergeLocation (a.state key) (b.state key) := by
  by_cases h : (a.get key).isSome ∨ (b.get key).isSome
  · simp [ProvenanceMap.state, mergeProvenance, h]
  · have ha : a.get key = none := by simpa using fun hs => h (Or.inl hs)
    have hb : b.get key = none := by simpa using fun hs => h (Or.inr hs)
    simp [ProvenanceMap.state, mergeProvenance, ha, hb, mergeLocation]

instance : SemilatticeSup ProvenanceMap where
  sup := mergeProvenance
  le_sup_left a b key := by
    refine ⟨fun h => (isSome_mergeProvenance a b key).mpr (Or.inl h), ?_⟩
    rw [state_mergeProvenance]
    exact le_sup_left (a := a.state key)
  le_sup_right a b key := by
    refine ⟨fun h => (isSome_mergeProvenance a b key).mpr (Or.inr h), ?_⟩
    rw [state_mergeProvenance]
    exact le_sup_right (b := b.state key)
  sup_le a b c hac hbc key := by
    refine ⟨fun h => ((isSome_mergeProvenance a b key).mp h).elim (hac key).1 (hbc key).1, ?_⟩
    rw [state_mergeProvenance]
    exact sup_le (a := a.state key) (hac key).2 (hbc key).2

theorem isLUB_foldl_sup {α : Type} [SemilatticeSup α] (a : α) (as : List α) :
    IsLUB {x | x ∈ a :: as} (as.foldl (· ⊔ ·) a) := by
  induction as generalizing a with
  | nil => simp
  | cons b as ih =>
    have hfold := ih (a ⊔ b)
    refine ⟨?_, ?_⟩
    · intro x hx
      rcases List.mem_cons.mp hx with rfl | hx
      · exact le_sup_left.trans (hfold.1 List.mem_cons_self)
      · rcases List.mem_cons.mp hx with rfl | hx
        · exact le_sup_right.trans (hfold.1 List.mem_cons_self)
        · exact hfold.1 (List.mem_cons_of_mem _ hx)
    · intro c hc
      refine hfold.2 ?_
      intro x hx
      rcases List.mem_cons.mp hx with rfl | hx
      · exact sup_le (hc List.mem_cons_self) (hc (List.mem_cons_of_mem _ List.mem_cons_self))
      · exact hc (List.mem_cons_of_mem _ (List.mem_cons_of_mem _ hx))

/-! ### The state a block begins in -/

/-- The resources already consumed, those still owned, and what each location holds. -/
abbrev OwnershipState := Finset ValueId × Finset ValueId × ProvenanceMap

/-- What is known of a block before it is run. -/
inductive IncomingState (F : Type) where
  | entry (state : F)
  /-- The join over every predecessor that has been run. -/
  | ready (state : F)
  /-- None of them has been run yet. -/
  | pending

/-- Every edge a terminator can take; the success edge of an invoke makes its slot live. -/
def ownershipEdges : Terminator → List (BlockId × Option ValueId)
  | .invoke _ _ _ _ okSlot okTarget errTargets =>
    (okTarget, some okSlot) :: errTargets.map fun t => (t.target, none)
  | .branch target => [(target, none)]
  | .condBranch _ thenBlock elseBlock => [(thenBlock, none), (elseBlock, none)]
  | .switch _ _ cases => cases.map fun target => (target, none)
  | .ret _ | .raise _ => []

/-- The edges into a block, as the blocks of a function are listed. -/
def incomingEdges (blocks : List BasicBlock) (target : BlockId) :
    List (BlockId × Option ValueId) :=
  blocks.flatMap fun block => (ownershipEdges block.terminator).filterMap fun edge =>
    if edge.1 = target then some (block.id, edge.2) else none

section
variable (reachable : Finset BlockId) (out : BlockId → Option OwnershipState)
  (isResource : ValueId → Bool)

/-- The state an edge brings, if its block can be reached and has been run. -/
def edgeState (edge : BlockId × Option ValueId) : Option OwnershipState :=
  if edge.1 ∈ reachable then
    (out edge.1).map fun (facts, live, provenance) =>
      match edge.2 with
      | some slot =>
        if isResource slot then
          (facts, insert slot live,
            provenance.insert slot (.initialized (.live {slot} .owned)))
        else (facts, live, provenance)
      | none => (facts, live, provenance)
  else none

def joinStates (a b : OwnershipState) : OwnershipState :=
  (a.1 ∪ b.1, a.2.1 ∪ b.2.1, mergeProvenance a.2.2 b.2.2)

def inStateFor (blockId entry : BlockId) (entrySeed : Finset ValueId × ProvenanceMap)
    (edges : List (BlockId × Option ValueId)) : IncomingState OwnershipState :=
  if blockId = entry then .entry (∅, entrySeed.1, entrySeed.2)
  else match edges.filterMap (edgeState reachable out isResource) with
    | [] => .pending
    | first :: rest => .ready (rest.foldl joinStates first)

/-- A block begins in the least state above what its edges bring. -/
theorem isLUB_inStateFor {blockId entry : BlockId} {entrySeed : Finset ValueId × ProvenanceMap}
    {edges : List (BlockId × Option ValueId)} {state : OwnershipState}
    (h : inStateFor reachable out isResource blockId entry entrySeed edges = .ready state) :
    IsLUB {s | ∃ edge ∈ edges, edgeState reachable out isResource edge = some s} state := by
  unfold inStateFor at h
  split at h
  · cases h
  · split at h
    · cases h
    · next first rest hstates =>
      cases h
      have hlub := isLUB_foldl_sup first rest
      rw [← hstates] at hlub
      simp only [List.mem_filterMap] at hlub
      exact hlub

theorem inStateFor_perm {edges edges' : List (BlockId × Option ValueId)} (h : edges.Perm edges')
    (blockId entry : BlockId) (entrySeed : Finset ValueId × ProvenanceMap) :
    inStateFor reachable out isResource blockId entry entrySeed edges =
      inStateFor reachable out isResource blockId entry entrySeed edges' := by
  unfold inStateFor
  have hstates := h.filterMap (edgeState reachable out isResource)
  split
  · rfl
  · cases hleft : edges.filterMap (edgeState reachable out isResource) with
    | nil =>
      rw [hleft] at hstates
      rw [hstates.nil_eq]
    | cons first rest =>
      cases hright : edges'.filterMap (edgeState reachable out isResource) with
      | nil =>
        rw [hright] at hstates
        rw [hstates.eq_nil] at hleft
        cases hleft
      | cons first' rest' =>
        rw [hleft, hright] at hstates
        have hsame : {x | x ∈ first :: rest} = {x | x ∈ first' :: rest'} :=
          Set.ext fun x => hstates.mem_iff
        have hfirst := isLUB_foldl_sup first rest
        rw [hsame] at hfirst
        exact congrArg IncomingState.ready (hfirst.unique (isLUB_foldl_sup first' rest'))

end

/-- Merging is a join: it does not depend on the order or the number of times that two sides
are merged, says no more than either of them does, and a block begins in one state however the
blocks before it are listed. -/
theorem merge_laws :
    (∀ a b c : LocationState, mergeLocation a b = mergeLocation b a ∧
      mergeLocation (mergeLocation a b) c = mergeLocation a (mergeLocation b c) ∧
      mergeLocation a a = a ∧ a ≤ mergeLocation a b ∧ b ≤ mergeLocation a b) ∧
    (∀ a b c : ProvenanceMap, mergeProvenance a b = mergeProvenance b a ∧
      mergeProvenance (mergeProvenance a b) c = mergeProvenance a (mergeProvenance b c) ∧
      mergeProvenance a a = a ∧ a ≤ mergeProvenance a b ∧ b ≤ mergeProvenance a b) ∧
    ∀ (reachable : Finset BlockId) (out : BlockId → Option OwnershipState)
      (isResource : ValueId → Bool) (blockId entry : BlockId)
      (entrySeed : Finset ValueId × ProvenanceMap) (blocks blocks' : List BasicBlock),
      blocks.Perm blocks' →
      inStateFor reachable out isResource blockId entry entrySeed (incomingEdges blocks blockId) =
        inStateFor reachable out isResource blockId entry entrySeed
          (incomingEdges blocks' blockId) := by
  refine ⟨fun a b c => ?_, fun a b c => ?_, ?_⟩
  · exact ⟨sup_comm a b, sup_assoc a b c, sup_idem a, le_sup_left (b := b),
      le_sup_right (a := a)⟩
  · exact ⟨sup_comm a b, sup_assoc a b c, sup_idem a, le_sup_left (b := b),
      le_sup_right (a := a)⟩
  · intro reachable out isResource blockId entry entrySeed blocks blocks' h
    exact inStateFor_perm reachable out isResource (h.flatMap_right _) blockId entry entrySeed

/-- Two branches into a block, one of which knows of a location. -/
theorem merge_laws_branches :
    inStateFor {⟨1⟩, ⟨2⟩}
        (fun id => some (∅, ∅, ⟨fun _ => if id = ⟨1⟩ then some .uninitialized else none⟩))
        (fun _ => true) ⟨3⟩ ⟨0⟩ (∅, ⟨fun _ => none⟩)
        (incomingEdges [⟨⟨1⟩, [], .branch ⟨3⟩⟩, ⟨⟨2⟩, [], .branch ⟨3⟩⟩] ⟨3⟩) =
      inStateFor {⟨1⟩, ⟨2⟩}
        (fun id => some (∅, ∅, ⟨fun _ => if id = ⟨1⟩ then some .uninitialized else none⟩))
        (fun _ => true) ⟨3⟩ ⟨0⟩ (∅, ⟨fun _ => none⟩)
        (incomingEdges [⟨⟨2⟩, [], .branch ⟨3⟩⟩, ⟨⟨1⟩, [], .branch ⟨3⟩⟩] ⟨3⟩) :=
  merge_laws.2.2 _ _ _ _ _ _ _ _ (List.Perm.swap _ _ [])

end Napitia.Verify

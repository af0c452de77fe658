import Napitia.Resourceck.Places

/-!
# What a structural drop destroys

The affine storage under a place is made of units: a place the checker tracks as a whole,
and a declared resource, which has an identity besides its fields. What a structural drop
destroys are the units still owned, each once, the last declared first.
-/
namespace Napitia.Resourceck
open Nir Lower

section
variable (C : FlowContext)

/-- A place the checker destroys by an action of its own, wherever it is owned. -/
def IsUnit (place : LocalPlace) : Prop :=
  ∃ ty, C.placeTy place = some ty ∧ ∀ item fields, C.decomposableFields ty = some (item, fields) →
    C.affine.declaredResource item = true

/-- A place and an affine field it is tracked by. -/
def TrackedField (place field : LocalPlace) : Prop :=
  ∃ ty item fields i fieldTy, C.placeTy place = some ty ∧
    C.decomposableFields ty = some (item, fields) ∧ fields[i]? = some fieldTy ∧
    C.isAffine fieldTy = true ∧ field = fieldOf place item ⟨i⟩

/-- A place reached through affine fields. -/
def PartOf : LocalPlace → LocalPlace → Prop := Relation.ReflTransGen (TrackedField C)

/-- Every place reached through affine fields lies above the generic depth limit. -/
def Shallow (place : LocalPlace) : Prop :=
  ∀ part, PartOf C place part → part.projections.length < Limits.maxGenericDepth

/-- The order in which parts are destroyed: what lies in a place before the place, and what
lies in a field before what lies in a field declared earlier. -/
def DroppedBefore (first second : LocalPlace) : Prop :=
  (isAncestorOf second first ∧ second ≠ first) ∨
    ∃ whole item i j, i < j ∧ isAncestorOf (fieldOf whole item ⟨j⟩) first ∧
      isAncestorOf (fieldOf whole item ⟨i⟩) second

variable {C}
variable {place part field : LocalPlace} {states : PlaceStates} {n : ℕ}

theorem isAncestorOf_fieldOf (place : LocalPlace) (item : ItemId) (field : FieldId) :
    isAncestorOf place (fieldOf place item field) :=
  isAncestorOf_iff.mpr ⟨rfl, List.prefix_append _ _⟩

theorem TrackedField.ancestor (h : TrackedField C place field) : isAncestorOf place field := by
  have ⟨ty, item, fields, i, fieldTy, _, _, _, _, heq⟩ := h
  rw [heq]
  exact isAncestorOf_fieldOf place item ⟨i⟩

theorem TrackedField.length (h : TrackedField C place field) :
    field.projections.length = place.projections.length + 1 := by
  have ⟨ty, item, fields, i, fieldTy, _, _, _, _, heq⟩ := h
  rw [heq, fieldOf, List.length_append]
  rfl

theorem TrackedField.eq_fieldOf (h : TrackedField C place field) {ty : Ty} {item : ItemId}
    {fields : List Ty} (hty : C.placeTy place = some ty)
    (hfields : C.decomposableFields ty = some (item, fields)) :
    ∃ i < fields.length, field = fieldOf place item ⟨i⟩ := by
  have ⟨ty', item', fields', i, fieldTy, hty', hfields', hget, _, heq⟩ := h
  rw [hty, Option.some.injEq] at hty'
  rw [← hty', hfields, Option.some.injEq, Prod.mk.injEq] at hfields'
  rw [← hfields'.2] at hget
  rw [← hfields'.1] at heq
  have hbound := (List.getElem?_eq_some_iff.mp hget).1
  exact ⟨i, hbound, heq⟩

theorem PartOf.ancestor (h : PartOf C place part) : isAncestorOf place part := by
  induction h with
  | refl => exact isAncestorOf_refl
  | tail _ hfield ih => exact isAncestorOf_trans ih hfield.ancestor

theorem holdsLiveValue_of_part (hpart : isAncestorOf place part)
    (h : holdsLiveValue (placeState states part) = true) :
    holdsLiveValue (placeState states place) = true := by
  by_cases havailable : placeState states place = .available
  · rw [havailable]
    rfl
  · have ⟨key, hkey, hclear, heq⟩ := exists_deciding havailable
    have hne : recorded states key ≠ .available := by rwa [heq]
    have hsame : placeState states part = recorded states key :=
      readDown_of_ancestor (isAncestorOf_trans hkey hpart) hclear hne
    have hsame' : placeState states place = recorded states key := heq.symm
    rwa [hsame', ← hsame]

/-! ### The units still owned -/

theorem mem_structuralDropTargetsWithin_succ :
    part ∈ C.structuralDropTargetsWithin states (n + 1) place ↔
      holdsLiveValue (placeState states place) = true ∧
        ((IsUnit C place ∧ part = place) ∨
          ∃ field, TrackedField C place field ∧
            part ∈ C.structuralDropTargetsWithin states n field) := by
  rw [FlowContext.structuralDropTargetsWithin]
  by_cases hlive : holdsLiveValue (placeState states place) = true
  · rw [if_neg (by simp [hlive])]
    simp only [hlive, true_and]
    cases hty : C.placeTy place with
    | none =>
      simp [IsUnit, TrackedField, hty]
    | some ty =>
      dsimp only
      cases hfields : C.decomposableFields ty with
      | none =>
        simp [IsUnit, TrackedField, hty, hfields]
      | some decomposed =>
        have ⟨item, fields⟩ := decomposed
        have hunit : IsUnit C place ↔ C.affine.declaredResource item = true := by
          simp [IsUnit, hty, hfields]
        have hfield : ∀ field, TrackedField C place field ↔ ∃ i fieldTy, fields[i]? = some fieldTy ∧
            C.isAffine fieldTy = true ∧ field = fieldOf place item ⟨i⟩ := by
          simp [TrackedField, hty, hfields]
        rw [List.mem_append, or_comm, hunit]
        apply or_congr
        · by_cases hresource : C.affine.declaredResource item = true <;> simp [hresource]
        · simp only [hfield, List.mem_flatMap, List.mem_reverse]
          constructor
          · intro h
            have ⟨entry, hentry, hin⟩ := h
            have hget := List.mem_zipIdx_iff_getElem?.mp hentry
            split at hin
            · exact ⟨_, ⟨entry.2, entry.1, hget, ‹_›, rfl⟩, hin⟩
            · simp at hin
          · intro h
            have ⟨field, ⟨i, fieldTy, hget, haffine, heq⟩, hin⟩ := h
            refine ⟨(fieldTy, i), List.mem_zipIdx_iff_getElem?.mpr hget, ?_⟩
            rw [if_pos haffine, ← heq]
            exact hin
  · rw [if_pos (by simpa using hlive)]
    simp [hlive]

theorem Shallow.of_field (h : Shallow C place) (hfield : TrackedField C place field) :
    Shallow C field :=
  fun part hpart => h part (.head hfield hpart)

theorem mem_structuralDropTargets (h : Shallow C place) :
    part ∈ C.structuralDropTargets states place ↔
      PartOf C place part ∧ IsUnit C part ∧ holdsLiveValue (placeState states part) = true := by
  unfold FlowContext.structuralDropTargets
  have hlength := h place .refl
  generalize hn : FlowContext.levelsBelow place = n
  unfold FlowContext.levelsBelow at hn
  induction n generalizing place with
  | zero => omega
  | succ n ih =>
    rw [mem_structuralDropTargetsWithin_succ]
    constructor
    · intro hmem
      have ⟨hlive, hcases⟩ := hmem
      rcases hcases with ⟨hunit, heq⟩ | ⟨field, hfield, hin⟩
      · rw [heq]
        exact ⟨.refl, hunit, hlive⟩
      · have hbelow := (h.of_field hfield) field .refl
        have hlevels := hfield.length
        have ⟨hwithin, hrest⟩ := (ih (h.of_field hfield) hbelow (by omega)).mp hin
        exact ⟨.head hfield hwithin, hrest⟩
    · intro hmem
      have ⟨hwithin, hunit, hlive⟩ := hmem
      refine ⟨holdsLiveValue_of_part hwithin.ancestor hlive, ?_⟩
      rcases Relation.ReflTransGen.cases_head hwithin with heq | ⟨field, hfield, hrest⟩
      · exact .inl ⟨heq ▸ hunit, heq.symm⟩
      · have hbelow := (h.of_field hfield) field .refl
        have hlevels := hfield.length
        exact .inr ⟨field, hfield, (ih (h.of_field hfield) hbelow (by omega)).mpr ⟨hrest, hunit, hlive⟩⟩

theorem ancestor_of_mem (h : part ∈ C.structuralDropTargetsWithin states n place) :
    isAncestorOf place part := by
  induction n generalizing place with
  | zero =>
    rw [FlowContext.structuralDropTargetsWithin, List.mem_singleton] at h
    rw [h]
    exact isAncestorOf_refl
  | succ n ih =>
    rcases (mem_structuralDropTargetsWithin_succ.mp h).2 with ⟨_, heq⟩ | ⟨field, hfield, hin⟩
    · rw [heq]
      exact isAncestorOf_refl
    · exact isAncestorOf_trans hfield.ancestor (ih hin)

/-! ### Their order -/

theorem DroppedBefore.ne {first second : LocalPlace} (h : DroppedBefore first second) :
    first ≠ second := by
  intro heq
  rw [heq] at h
  rcases h with ⟨_, hne⟩ | ⟨whole, item, i, j, hij, hj, hi⟩
  · exact hne rfl
  · have hsame : (fieldOf whole item ⟨j⟩).projections = (fieldOf whole item ⟨i⟩).projections := by
      rcases isAncestorOf_total hj hi with h | h
      · exact (isAncestorOf_iff.mp h).2.eq_of_length (by simp [fieldOf])
      · exact ((isAncestorOf_iff.mp h).2.eq_of_length (by simp [fieldOf])).symm
    have hindex : j = i := by simpa [fieldOf] using hsame
    omega

theorem fieldOf_above {item : ItemId} {i : FieldId} (h : isAncestorOf (fieldOf place item i) part) :
    isAncestorOf place part ∧ place ≠ part := by
  refine ⟨isAncestorOf_trans (isAncestorOf_fieldOf place item i) h, fun heq => ?_⟩
  have hle := (isAncestorOf_iff.mp h).2.length_le
  rw [← heq, fieldOf, List.length_append, List.length_singleton] at hle
  omega

theorem zipIdx_pairwise {α : Type} (l : List α) : l.zipIdx.Pairwise fun a b => a.2 < b.2 := by
  rw [← List.pairwise_map, List.zipIdx_map_snd]
  exact List.pairwise_lt_range'

theorem structuralDropTargetsWithin_pairwise :
    (C.structuralDropTargetsWithin states n place).Pairwise DroppedBefore := by
  induction n generalizing place with
  | zero => exact List.pairwise_singleton _ _
  | succ n ih =>
    rw [FlowContext.structuralDropTargetsWithin]
    split
    · exact .nil
    · split
      · exact .nil
      · split
        · exact List.pairwise_singleton _ _
        · rename_i item fields _
          rw [List.pairwise_append]
          refine ⟨?_, ?_, ?_⟩
          · rw [List.pairwise_flatMap]
            refine ⟨fun entry _ => ?_, ?_⟩
            · split
              · exact ih
              · exact .nil
            · rw [List.pairwise_reverse]
              refine (zipIdx_pairwise fields).imp ?_
              intro earlier later hlt first hfirst second hsecond
              split at hfirst
              · split at hsecond
                · exact .inr ⟨place, item, earlier.2, later.2, hlt, ancestor_of_mem hfirst,
                    ancestor_of_mem hsecond⟩
                · simp at hsecond
              · simp at hfirst
          · split
            · exact List.pairwise_singleton _ _
            · exact .nil
          · intro first hfirst second hsecond
            have ⟨entry, _, hin⟩ := List.mem_flatMap.mp hfirst
            split at hin
            · split at hsecond
              · rw [List.mem_singleton.mp hsecond]
                exact .inl (fieldOf_above (ancestor_of_mem hin))
              · simp at hsecond
            · simp at hin

/-! ### Targets inside one another -/

theorem PartOf.through {between : LocalPlace} (h : PartOf C place part)
    (hbelow : isAncestorOf place between) (habove : isAncestorOf between part) :
    PartOf C between part := by
  induction h with
  | refl =>
    rw [isAncestorOf_antisymm habove hbelow]
    exact .refl
  | @tail mid part _ hfield ih =>
    by_cases heq : between = part
    · rw [heq]
      exact .refl
    · refine .tail (ih ?_) hfield
      rcases isAncestorOf_total habove hfield.ancestor with h | h
      · exact h
      · have hle := (isAncestorOf_iff.mp h).2.length_le
        have hle' := (isAncestorOf_iff.mp habove).2.length_le
        have hlevels := hfield.length
        by_cases hlength : between.projections.length = part.projections.length
        · refine absurd ?_ heq
          have hsame := (isAncestorOf_iff.mp habove).2.eq_of_length hlength
          have hroot := (isAncestorOf_iff.mp habove).1
          obtain ⟨root, projections⟩ := between
          obtain ⟨root', projections'⟩ := part
          simp_all
        · have hmid := (isAncestorOf_iff.mp h).2.eq_of_length (by omega)
          have hroot := (isAncestorOf_iff.mp h).1
          refine isAncestorOf_iff.mpr ⟨hroot.symm, ?_⟩
          rw [hmid]

theorem declaredResource_of_inside (h : PartOf C place part) {whole : LocalPlace}
    (hbelow : isAncestorOf place whole) (habove : isAncestorOf whole part) (hne : whole ≠ part)
    (hunit : IsUnit C whole) : ∃ ty item fields, C.placeTy whole = some ty ∧
      C.decomposableFields ty = some (item, fields) ∧ C.affine.declaredResource item = true := by
  rcases Relation.ReflTransGen.cases_head (h.through hbelow habove) with heq | ⟨field, hfield, _⟩
  · exact absurd heq hne
  · have ⟨ty, item, fields, _, _, hty, hfields, _⟩ := hfield
    have ⟨ty', hty', hresource⟩ := hunit
    rw [hty, Option.some.injEq] at hty'
    exact ⟨ty, item, fields, hty, hfields, hresource item fields (hty' ▸ hfields)⟩

end

/-- What a structural drop of a place destroys: the units still owned, each once, what lies
in a later field before what lies in an earlier one, and one inside another only where the
outer one is a declared resource, which is destroyed after what it holds. -/
theorem structuralDropTargets_exact (C : FlowContext) (states : PlaceStates) (place : LocalPlace)
    (h : Shallow C place) :
    (∀ part, part ∈ C.structuralDropTargets states place ↔
      PartOf C place part ∧ IsUnit C part ∧ holdsLiveValue (placeState states part) = true) ∧
      (C.structuralDropTargets states place).Nodup ∧
      (C.structuralDropTargets states place).Pairwise DroppedBefore ∧
      ∀ part ∈ C.structuralDropTargets states place,
        ∀ whole ∈ C.structuralDropTargets states place, isAncestorOf whole part → whole ≠ part →
        ∃ ty item fields, C.placeTy whole = some ty ∧
          C.decomposableFields ty = some (item, fields) ∧
          C.affine.declaredResource item = true := by
  have hpairwise : (C.structuralDropTargets states place).Pairwise DroppedBefore :=
    structuralDropTargetsWithin_pairwise
  refine ⟨fun part => mem_structuralDropTargets h, hpairwise.imp fun h => h.ne, hpairwise, ?_⟩
  intro part hpart whole hwhole habove hne
  have ⟨hwithin, _⟩ := (mem_structuralDropTargets h).mp hpart
  have ⟨hwithin', hunit, _⟩ := (mem_structuralDropTargets h).mp hwhole
  exact declaredResource_of_inside hwithin hwithin'.ancestor habove hne hunit

/-- `resource File`, `resource Stream { file: File }` and
`record Session { stream: Stream, log: File }`, with a local of the last. -/
def openSessionContext : FlowContext where
  localTypes binding := if binding = ⟨0⟩ then some (.named ⟨2⟩) else none
  exprTypes _ := none
  affineItems := [⟨0⟩, ⟨1⟩, ⟨2⟩]
  variantItems _ := false
  takeFlags _ := none
  affine :=
    { aggregateFieldTypes := fun item =>
        if item = ⟨0⟩ then some []
        else if item = ⟨1⟩ then some [.named ⟨0⟩]
        else if item = ⟨2⟩ then some [.named ⟨1⟩, .named ⟨0⟩]
        else none
      declaredResource := fun item => decide (item = ⟨0⟩ ∨ item = ⟨1⟩)
      itemTypeParams := fun _ => some [] }
  fieldProjections _ := none
  fuel := 1

def sessionStream : LocalPlace := fieldOf (ofRoot ⟨0⟩) ⟨2⟩ ⟨0⟩

def sessionLog : LocalPlace := fieldOf (ofRoot ⟨0⟩) ⟨2⟩ ⟨1⟩

def streamFile : LocalPlace := fieldOf sessionStream ⟨1⟩ ⟨0⟩

theorem session_partOf {part : LocalPlace} (h : PartOf openSessionContext (ofRoot ⟨0⟩) part) :
    part = ofRoot ⟨0⟩ ∨ part = sessionStream ∨ part = sessionLog ∨ part = streamFile := by
  induction h with
  | refl => exact .inl rfl
  | tail _ hfield ih =>
    have hroot : openSessionContext.placeTy (ofRoot ⟨0⟩) = some (.named ⟨2⟩) := by decide
    have hstream : openSessionContext.placeTy sessionStream = some (.named ⟨1⟩) := by decide
    have hlog : openSessionContext.placeTy sessionLog = some (.named ⟨0⟩) := by decide
    have hfile : openSessionContext.placeTy streamFile = some (.named ⟨0⟩) := by decide
    have hsession : openSessionContext.decomposableFields (.named ⟨2⟩) =
        some (⟨2⟩, [.named ⟨1⟩, .named ⟨0⟩]) := by decide
    have hstreams : openSessionContext.decomposableFields (.named ⟨1⟩) = some (⟨1⟩, [.named ⟨0⟩]) := by
      decide
    have hfiles : openSessionContext.decomposableFields (.named ⟨0⟩) = some (⟨0⟩, []) := by decide
    rcases ih with hmid | hmid | hmid | hmid <;> rw [hmid] at hfield
    · have ⟨i, hi, heq⟩ := hfield.eq_fieldOf hroot hsession
      match i with
      | 0 => exact .inr (.inl heq)
      | 1 => exact .inr (.inr (.inl heq))
      | i + 2 => exact absurd hi (by simp)
    · have ⟨i, hi, heq⟩ := hfield.eq_fieldOf hstream hstreams
      match i with
      | 0 => exact .inr (.inr (.inr heq))
      | i + 1 => exact absurd hi (by simp)
    · have ⟨i, hi, _⟩ := hfield.eq_fieldOf hlog hfiles
      simp at hi
    · have ⟨i, hi, _⟩ := hfield.eq_fieldOf hfile hfiles
      simp at hi

/-- Of a session whose log has been moved the stream and its file are destroyed. -/
theorem structuralDropTargets_session :
    (sessionStream ∈ openSessionContext.structuralDropTargets (setPlaceState ∅ sessionLog .moved)
        (ofRoot ⟨0⟩) ↔
      PartOf openSessionContext (ofRoot ⟨0⟩) sessionStream ∧
        IsUnit openSessionContext sessionStream ∧
        holdsLiveValue (placeState (setPlaceState ∅ sessionLog .moved) sessionStream) = true) ∧
      (openSessionContext.structuralDropTargets (setPlaceState ∅ sessionLog .moved)
        (ofRoot ⟨0⟩)).Nodup := by
  have hshallow : Shallow openSessionContext (ofRoot ⟨0⟩) := by
    intro part hpart
    rcases session_partOf hpart with h | h | h | h <;> rw [h] <;> decide
  have hexact := structuralDropTargets_exact openSessionContext
    (setPlaceState ∅ sessionLog .moved) (ofRoot ⟨0⟩) hshallow
  exact ⟨hexact.1 sessionStream, hexact.2.1⟩

/-- A stream is destroyed together with the file it holds. -/
theorem structuralDropTargets_nested :
    streamFile ∈ openSessionContext.structuralDropTargets ∅ (ofRoot ⟨0⟩) ∧
      sessionStream ∈ openSessionContext.structuralDropTargets ∅ (ofRoot ⟨0⟩) ∧
      isAncestorOf sessionStream streamFile = true ∧ sessionStream ≠ streamFile := by
  decide

end Napitia.Resourceck

import Napitia.Resourceck.MixedAliases
import Napitia.Resourceck.VisitRule

/-!
# Locals that own nothing

A local of a type without resources has no state to lose: the walk records nothing for it
and lets it be read, moved and returned at will. It does so as long as it comes to no
`defer` that names the local, since the places a `defer` protects are collected without
asking whether they own anything.
-/
namespace Napitia.Resourceck
open Nir Lower Stateful Typeck
open Hir (ExprId)
open Hir.Body

section
variable (C : FlowContext) (b : LocalId)

/-- No place of the local has the type of a resource. -/
def HoldsNone : Prop :=
  ∀ place ty, place.root = b → C.placeTy place = some ty → C.isAffine ty = false

/-- An expression that names a place has the type of the place. -/
def PlaceTyped (e : HirExpr) : Prop :=
  ∀ place, C.resolvePlace e = some place → C.exprTypes e.id = C.placeTy place

/-- The expression, and the target it assigns to, are typed as the places they name. -/
def ExprTyped : HirExpr → Prop
  | .assign _ target _ _ => PlaceTyped C target
  | e => PlaceTyped C e

def StmtTyped : HirStmt → Prop
  | .drop e => PlaceTyped C e
  | .observe _ source aliased _ =>
    PlaceTyped C source ∧ C.localTypes aliased = C.exprTypes source.id
  | _ => True

/-- A deferred call that protects no place of the local: it is refused for an alias it
names, or it does not name the local. -/
def DeferClear (e : HirExpr) (s : FlowState) : Prop :=
  (∃ place ∈ observedPlaces C e, (s.observationAliases.lookup place.root).isSome = true) ∨
    ∀ place ∈ observedPlaces C e, place.root ≠ b

/-- Nothing is recorded for any place of the local. -/
def Clear (states : PlaceStates) : Prop :=
  ∀ key : LocalPlace, key.root = b → states.lookup key = none

/-- The checker holds nothing against the local. -/
structure Untracked (s : FlowState) : Prop where
  states : Clear b s.states
  observing : b ∉ s.observing
  aliases : s.observationAliases.lookup b = none
  observations : ∀ o ∈ s.observations, o.place.root ≠ b
  frames : ∀ frame ∈ s.loopStack, ∀ exit ∈ frame.breakStates ++ frame.continueStates, Clear b exit

end

section
variable {C : FlowContext} {b : LocalId} {s s' : FlowState} {e : HirExpr} {place : LocalPlace}

/-! ### What owns nothing -/

theorem HoldsNone.expr (h : HoldsNone C b) (htyped : PlaceTyped C e)
    (hplace : C.resolvePlace e = some place) (hroot : place.root = b) :
    C.isAffineExpr e.id = false := by
  rw [FlowContext.isAffineExpr, htyped place hplace]
  cases hty : C.placeTy place with
  | none => rfl
  | some ty => exact h place ty hroot hty

theorem HoldsNone.apart (h : HoldsNone C b) (htyped : PlaceTyped C e)
    (haffine : C.isAffineExpr e.id = true) (hplace : C.resolvePlace e = some place) :
    place.root ≠ b := by
  intro hroot
  rw [h.expr htyped hplace hroot] at haffine
  cases haffine

theorem HoldsNone.local (h : HoldsNone C b) : C.isResourceLocal b = false := by
  rw [FlowContext.isResourceLocal]
  cases hty : C.localTypes b with
  | none => rfl
  | some ty =>
    apply h (ofRoot b) ty rfl
    simp only [FlowContext.placeTy, ofRoot, hty]
    rfl

theorem HoldsNone.owned {target : HirExpr} (h : HoldsNone C b) (htyped : PlaceTyped C target)
    (howned : ownedTarget C target = some place) : place.root ≠ b := by
  cases target with
  | localVar id binding =>
    simp only [ownedTarget] at howned
    split at howned
    · rename_i hresource
      cases howned
      intro hroot
      change binding = b at hroot
      rw [hroot, h.local] at hresource
      cases hresource
    · cases howned
  | field id base =>
    simp only [ownedTarget] at howned
    split at howned
    · rename_i haffine
      exact h.apart htyped haffine howned
    · cases howned
  | _ => cases howned

theorem HoldsNone.dropped (h : HoldsNone C b) (htyped : PlaceTyped C e)
    (hdropped : droppedField C e = some place) : place.root ≠ b := by
  cases e with
  | field id base =>
    simp only [droppedField] at hdropped
    split at hdropped
    · rename_i haffine
      exact h.apart htyped haffine hdropped
    · cases hdropped
  | _ => cases hdropped

theorem HoldsNone.observed {source : HirExpr} (h : HoldsNone C b) (htyped : PlaceTyped C source)
    (hsource : observedSource C source = some place) : place.root ≠ b := by
  unfold observedSource at hsource
  split at hsource
  · rename_i haffine
    exact h.apart htyped haffine hsource
  · cases hsource

/-! ### Uses of an untracked local -/

theorem placesOverlap_root {place place' : LocalPlace} (h : placesOverlap place place' = true) :
    place.root = place'.root := by
  rw [placesOverlap, Bool.or_eq_true, isAncestorOf_iff, isAncestorOf_iff] at h
  rcases h with h | h
  · exact h.1
  · exact h.1.symm

theorem Untracked.rejectsNone (h : Untracked b s) : s.rejectsOwnership (ofRoot b) = none := by
  have hnone : conflictingObservation s (ofRoot b) = none := by
    apply List.find?_eq_none.mpr
    intro o ho hoverlap
    exact h.observations o ho (placesOverlap_root hoverlap)
  simp only [FlowState.rejectsOwnership, ofRoot, ne_eq, not_true_eq_false, false_and, if_false]
  have hroot : (⟨b, []⟩ : LocalPlace) = ofRoot b := rfl
  simp only [hroot, h.aliases, hnone, Option.isSome_none, Bool.false_eq_true, if_false]

theorem Untracked.run_localUse (h : Untracked b s) (kind : ConsumeKind) :
    (checkLocalUse C b kind).run s = (⟨⟩, s) := by
  have hlookup := h.states (ofRoot b) rfl
  unfold checkLocalUse
  split
  · simp only [checkRead, run_bind, run_get, h.observing, if_false, hlookup]
    rfl
  · simp only [checkConsume, run_bind, run_get, h.observing, if_false,
      run_rejectOwnership_none h.rejectsNone, Bool.false_eq_true, hlookup]
    rfl

theorem Untracked.placeState_eq (h : Untracked b s) (hroot : place.root = b) :
    placeState s.states place = .available := by
  rw [placeState_eq_readDown, readDown_eq_available]
  intro key hkey
  rw [recorded, h.states key ((isAncestorOf_iff.mp hkey).1.trans hroot)]
  rfl

theorem Untracked.run_placeRead (h : Untracked b s) (hroot : place.root = b) :
    (checkPlaceRead place).run s = (⟨⟩, s) := by
  simp only [checkPlaceRead, run_bind, run_get, h.placeState_eq hroot]
  rfl

theorem Untracked.run_localDrop (h : Untracked b s) (id : ExprId) :
    (checkLocalDrop C b id).run s = (⟨⟩, s) := by
  simp only [checkLocalDrop, run_bind, run_get, h.observing, if_false,
    run_rejectOwnership_none h.rejectsNone, Bool.false_eq_true, h.states (ofRoot b) rfl]
  rfl

/-! ### What keeps the local untracked -/

theorem Untracked.of_same (h : Untracked b s) (hsame : Same s s') : Untracked b s' where
  states := hsame.states ▸ h.states
  observing := hsame.observing ▸ h.observing
  aliases := hsame.observationAliases ▸ h.aliases
  observations := hsame.observations ▸ h.observations
  frames := hsame.loopStack ▸ h.frames

theorem Untracked.of_touches {root : LocalId} (h : Untracked b s) (hne : root ≠ b)
    (htouches : Touches root s s') : Untracked b s' where
  states key hkey := (htouches.states key fun heq => hne (heq.symm.trans hkey)).trans
    (h.states key hkey)
  observing := htouches.observing ▸ h.observing
  aliases := htouches.observationAliases ▸ h.aliases
  observations := htouches.observations ▸ h.observations
  frames := htouches.loopStack ▸ h.frames

theorem Untracked.swap (h : Untracked b s) {states : PlaceStates} (hstates : Clear b states) :
    Untracked b { s with states } :=
  ⟨hstates, h.observing, h.aliases, h.observations, h.frames⟩

/-- The invariant as a family of one. -/
def untracked (b : LocalId) : Unit → FlowState → Prop := fun _ => Untracked b

theorem safe_of_touches {α : Type} {root : LocalId} {x : FlowM α} (hne : root ≠ b)
    (h : Within (Touches root) x) : Safe (untracked b) x :=
  .intro fun _ s hs => hs.of_touches hne (h s)

theorem safe_of_same {α : Type} {x : FlowM α} (h : Within Same x) : Safe (untracked b) x :=
  .intro fun _ s hs => hs.of_same (h s)

theorem safe_of_unchanged {x : FlowM Unit} (h : ∀ s, Untracked b s → x.run s = (⟨⟩, s)) :
    Safe (untracked b) x := by
  refine .intro fun _ s hs => ?_
  rw [h s hs]
  exact hs

theorem Clear.insert {states : PlaceStates} (h : Clear b states) (hne : place.root ≠ b)
    (state : ResourceState) : Clear b (states.insert place state) := by
  intro key hkey
  have hkey' : key ≠ place := by
    intro heq
    subst heq
    exact hne hkey
  rw [AList.lookup_insert_ne hkey']
  exact h key hkey

theorem Clear.notMem {states : PlaceStates} (h : Clear b states) {key : LocalPlace}
    (hmem : key ∈ states.keys) : key.root ≠ b :=
  fun hkey => AList.lookup_eq_none.mp (h key hkey) (AList.mem_keys.mp hmem)

theorem Clear.foldl {α : Type} {states : PlaceStates} (h : Clear b states) {l : List α}
    {f : PlaceStates → α → PlaceStates} (hf : ∀ a ∈ l, ∀ states, Clear b states → Clear b (f states a)) :
    Clear b (l.foldl f states) := by
  induction l generalizing states with
  | nil => exact h
  | cons a l ih =>
    exact ih (hf a List.mem_cons_self states h) fun c hc => hf c (List.mem_cons_of_mem a hc)

theorem Clear.release {states : PlaceStates} (h : Clear b states) (scope : List LocalPlace) :
    Clear b (releaseScope states scope) := by
  apply h.foldl
  intro place _ states h
  split
  · rename_i hscheduled
    refine h.insert (fun hroot => ?_) _
    rw [h place hroot] at hscheduled
    cases hscheduled
  · exact h

theorem Clear.mapValues {states : PlaceStates} (h : Clear b states)
    (f : LocalPlace → ResourceState → ResourceState) : Clear b (states.mapValues f) := by
  intro key hkey
  rw [AList.lookup_mapValues, h key hkey]
  rfl

theorem clear_tabulate {keys : List LocalPlace} (h : ∀ key ∈ keys, key.root ≠ b)
    (f : LocalPlace → ResourceState) : Clear b (AList.tabulate keys f) := by
  intro key hkey
  rw [AList.lookup_tabulate, if_neg fun hmem => h key hmem hkey]

theorem notMem_trackedKeys {entry states : PlaceStates} (h : Clear b states) {key : LocalPlace}
    (hmem : key ∈ trackedKeys entry states) : key.root ≠ b :=
  h.notMem (List.mem_filter.mp hmem).1

theorem notMem_joinedKeys {entry : PlaceStates} {edges : List PlaceStates} (hentry : Clear b entry)
    (hedges : ∀ edge ∈ edges, Clear b edge) {key : LocalPlace}
    (hmem : key ∈ (entry.keys ++ edges.flatMap (trackedKeys entry)).dedup) : key.root ≠ b := by
  rcases List.mem_append.mp (List.mem_dedup.mp hmem) with hmem | hmem
  · exact hentry.notMem hmem
  · obtain ⟨edge, hedge, hmem⟩ := List.mem_flatMap.mp hmem
    exact notMem_trackedKeys (hedges edge hedge) hmem

theorem clear_joinBranchStates {entry : PlaceStates} {branches : List (PlaceStates × Bool)}
    (hentry : Clear b entry) (hbranches : ∀ branch ∈ branches, Clear b branch.1) :
    Clear b (joinBranchStates entry branches) := by
  have hreach : ∀ edge ∈ reachableBranches branches, Clear b edge := by
    intro edge hmem
    obtain ⟨branch, hbranch, rfl⟩ := List.mem_map.mp hmem
    exact hbranches branch (List.mem_filter.mp hbranch).1
  unfold joinBranchStates
  split
  · exact hentry
  · rename_i first rest hedges
    rw [hedges] at hreach
    exact Clear.foldl (clear_tabulate (fun key hmem => notMem_joinedKeys hentry hreach hmem) _)
      fun _ _ _ h => h.mapValues _

theorem clear_foldl_joinExit {entry : PlaceStates} {poisoned : List LocalPlace}
    {acc : PlaceStates × List LocalPlace} (edges : List PlaceStates) (h : Clear b acc.1) :
    Clear b (edges.foldl (joinExit entry poisoned) acc).1 := by
  induction edges generalizing acc with
  | nil => exact h
  | cons edge edges ih => exact ih (h.mapValues _)

theorem clear_finishLoop {entry fallthrough : PlaceStates} {afterBase : Option PlaceStates}
    {frame : LoopFrame} {reachable : Bool} (hentry : Clear b entry) (hfall : Clear b fallthrough)
    (hbase : ∀ states ∈ afterBase, Clear b states)
    (hframe : ∀ exit ∈ frame.breakStates ++ frame.continueStates, Clear b exit) :
    Clear b (finishLoop entry afterBase frame reachable fallthrough).1 := by
  have hback : ∀ edge ∈ frame.backedges reachable fallthrough, Clear b edge := by
    intro edge hmem
    rcases List.mem_append.mp hmem with hmem | hmem
    · exact hframe edge (List.mem_append_right _ hmem)
    · cases reachable with
      | false => cases hmem
      | true => exact List.mem_singleton.mp hmem ▸ hfall
  have hexits : ∀ edge ∈ frame.breakStates ++ afterBase.toList, Clear b edge := by
    intro edge hmem
    rcases List.mem_append.mp hmem with hmem | hmem
    · exact hframe edge (List.mem_append_left _ hmem)
    · exact hbase edge (Option.mem_toList.mp hmem)
  unfold finishLoop
  simp only
  split
  · exact hentry
  · rename_i first rest hedges
    rw [hedges] at hexits
    have hkeys : ∀ key ∈ (compareKeys entry (frame.backedges reachable fallthrough) ++
        (first :: rest).flatMap (trackedKeys entry)).dedup, key.root ≠ b := by
      intro key hmem
      rcases List.mem_append.mp (List.mem_dedup.mp hmem) with hmem | hmem
      · exact notMem_joinedKeys hentry hback hmem
      · obtain ⟨edge, hedge, hmem⟩ := List.mem_flatMap.mp hmem
        exact notMem_trackedKeys (hexits edge hedge) hmem
    have hpoisoned : ∀ key ∈ poisonedKeys entry (frame.backedges reachable fallthrough),
        key.root ≠ b := fun key hmem => notMem_joinedKeys hentry hback (List.mem_filter.mp hmem).1
    have htable := clear_tabulate hkeys (defaultFor entry first)
    have hafter : Clear b ((poisonedKeys entry (frame.backedges reachable fallthrough)).foldl
        (fun after key => after.insert key .error) (AList.tabulate (compareKeys entry (frame.backedges reachable fallthrough) ++
          (first :: rest).flatMap (trackedKeys entry)).dedup (defaultFor entry first))) :=
      htable.foldl fun key hmem _ h => h.insert (hpoisoned key hmem) _
    exact clear_foldl_joinExit rest hafter

/-! ### The operations of the walk -/

theorem safe_protectPlace (hne : place.root ≠ b) : Safe (untracked b) (protectPlace place) := by
  refine Safe.intro fun _ s hs => ?_
  by_cases hfree : placeState s.states place = .available
  · simp only [protectPlace, run_bind, run_get, hfree, if_true]
    exact ⟨hs.states.insert hne _, hs.observing, hs.aliases, hs.observations, hs.frames⟩
  · simp only [protectPlace, run_bind, run_get, hfree, if_false]
    exact hs

theorem Untracked.deferred (h : Untracked b s) (hclear : DeferClear C b e s) :
    Untracked b (after (afterDefer C e) s) := by
  rw [afterDefer, after_bind, run_get, after_get, after_ite]
  split
  · exact h.of_same (same_diagnose _ s)
  · rename_i haccepted
    have hapart : ∀ place ∈ observedPlaces C e, place.root ≠ b := by
      rcases hclear with ⟨place, hmem, halias⟩ | hapart
      · exact absurd (List.any_eq_true.mpr ⟨place, hmem, halias⟩) haccepted
      · exact hapart
    have hprotects : Safe (untracked b) ((observedPlaces C e).forM protectPlace) :=
      Safe.forM fun place hmem => safe_protectPlace (hapart place hmem)
    have hregistered : Safe (untracked b) (registerDefer C e) := safe_of_same (same_registerDefer C e)
    have hpushed : Safe (untracked b) (pushCleanup (.defer e.id)) := safe_of_same (same_pushCleanup _)
    exact ((hregistered.bind fun _ => hpushed.bind fun _ => hprotects) ⟨⟩ s h).1

theorem safe_bindLocal (h : HoldsNone C b) (binding : LocalId) :
    Safe (untracked b) (bindLocal C binding) := by
  unfold bindLocal whenever
  split
  · rename_i hresource
    have hne : binding ≠ b := by
      intro heq
      rw [heq, h.local] at hresource
      cases hresource
    refine Safe.bind (Safe.intro fun _ s hs => ?_) fun _ =>
      safe_of_same (same_pushCleanup _)
    exact hs.swap (@Clear.insert b (ofRoot binding) s.states hs.states hne _)
  · exact Safe.pure _

theorem safe_removeLocal (binding : LocalId) : Safe (untracked b) (removeLocal binding) := by
  refine Safe.intro fun _ s hs => hs.swap ?_
  intro key hkey
  by_cases heq : key = ofRoot binding
  · rw [heq, AList.lookup_erase]
  · rw [AList.lookup_erase_ne heq]
    exact hs.states key hkey

theorem safe_finishBranches (kind : ConsumeKind) {entry : PlaceStates}
    {branches : List (PlaceStates × Bool)} (hentry : Clear b entry)
    (hbranches : ∀ branch ∈ branches, Clear b branch.1) :
    Safe (untracked b) (finishBranches kind entry branches) := by
  refine Safe.bind (Safe.intro fun _ s hs => hs.swap (clear_joinBranchStates hentry hbranches)) fun _ => ?_
  exact .ite (safe_of_same (same_diagnose _)) (Safe.pure _)

theorem safe_leaveLoop (id : ExprId) {onFrame : PlaceStates → LoopFrame → LoopFrame}
    (h : ∀ states frame, Clear b states →
      (∀ exit ∈ frame.breakStates ++ frame.continueStates, Clear b exit) →
      ∀ exit ∈ (onFrame states frame).breakStates ++ (onFrame states frame).continueStates,
        Clear b exit) : Safe (untracked b) (leaveLoop C id onFrame) := by
  refine Maintains.get.bind fun s _ => ?_
  cases s.loopStack with
  | nil => exact Safe.pure _
  | cons frame rest =>
    refine Safe.bind (safe_of_same (same_recordObservationExit _ _)) fun _ => ?_
    refine Safe.bind (safe_of_same (same_recordExit C _ _)) fun _ => ?_
    refine Safe.intro fun _ s hs => ⟨hs.states, hs.observing, hs.aliases, hs.observations, ?_⟩
    have hframes := hs.frames
    intro frame' hmem
    cases hstack : s.loopStack with
    | nil =>
      simp only [run_modify, hstack, List.modifyHead_nil] at hmem
      cases hmem
    | cons frame rest =>
      rw [hstack] at hframes
      simp only [run_modify, hstack, List.modifyHead_cons] at hmem
      rcases List.mem_cons.mp hmem with heq | hmem
      · rw [heq]
        apply h _ _ _ (hframes frame List.mem_cons_self)
        exact hs.states.foldl fun scope _ _ hstates => hstates.release scope
      · exact hframes frame' (List.mem_cons_of_mem frame hmem)

theorem Untracked.loopLeft {entry : PlaceStates} {afterBase : Option PlaceStates}
    (h : Untracked b s) (hentry : Clear b entry) (hbase : ∀ states ∈ afterBase, Clear b states)
    (bodyId : ExprId) (isLoop : Bool) : Untracked b (after (popLoop C entry afterBase bodyId isLoop) s) := by
  have hswapped := h.swap hentry
  have hframes := h.frames
  cases hstack : s.loopStack with
  | nil =>
    rw [after_popLoop_nil hstack]
    exact hswapped
  | cons frame rest =>
    rw [hstack] at hframes
    have hloop := @clear_finishLoop b entry s.states afterBase frame (!C.diverges bodyId) hentry h.states hbase
      (hframes frame List.mem_cons_self)
    simp only [popLoop, swapStates, after, run_bind, run_get, hstack]
    exact ⟨hloop, h.observing, h.aliases, h.observations,
      fun frame' hmem => hframes frame' (List.mem_cons_of_mem frame hmem)⟩

theorem Untracked.loopEntered (h : Untracked b s) : Untracked b (after pushLoop s) := by
  refine ⟨h.states, h.observing, h.aliases, h.observations, ?_⟩
  intro frame hmem exit hexit
  rcases List.mem_cons.mp hmem with heq | hmem
  · rw [heq] at hexit
    cases hexit
  · exact h.frames frame hmem exit hexit

theorem Untracked.observed (h : Untracked b s) {id : ObservationId} {aliased : LocalId} {ty : Ty}
    {scope : ExprId} (hplace : place.root ≠ b) (haliased : aliased ≠ b) :
    Untracked b (after (beginObservation id place aliased ty scope) s) := by
  have hne : (b == aliased) = false := beq_eq_false_iff_ne.mpr haliased.symm
  refine ⟨h.states, h.observing, ?_, List.forall_mem_cons.mpr ⟨hplace, h.observations⟩, h.frames⟩
  simp only [after, beginObservation, run_modify, List.lookup_cons, hne]
  exact h.aliases

theorem Untracked.openScope (h : Untracked b s) : Untracked b (openScope s) :=
  ⟨h.states, h.observing, h.aliases, h.observations, h.frames⟩

theorem Untracked.closeScope (h : Untracked b s) : Untracked b (closeScope s) :=
  ⟨h.states.release _, h.observing, h.aliases, h.observations, h.frames⟩

theorem Untracked.observeStart (h : Untracked b s) {id : ObservationId} {aliased : LocalId}
    {scope : ExprId} (hplace : place.root ≠ b) (haliased : aliased ≠ b) :
    Untracked b (observeStart C id place aliased scope s) := by
  have hread : Untracked b (after (checkPlaceRead place) s) :=
    h.of_touches hplace (within_checkPlaceRead touches_diagnose (touches_setPlace rfl) s)
  unfold Resourceck.observeStart
  cases C.placeTy place with
  | none => exact hread
  | some ty =>
    simp only
    cases C.placeStatus (after (checkPlaceRead place) s) place with
    | available | dropScheduled | observed => exact hread.observed hplace haliased
    | partiallyMoved => exact hread.of_same (same_diagnose _ _)
    | moved | dropped | error => exact hread

theorem HoldsNone.alias_ne {source : HirExpr} {aliased : LocalId} (h : HoldsNone C b)
    (halias : C.localTypes aliased = C.exprTypes source.id)
    (hsource : observedSource C source = some place) : aliased ≠ b := by
  intro heq
  have hlocal := h.local
  unfold observedSource at hsource
  split at hsource
  · rename_i haffine
    rw [FlowContext.isResourceLocal, ← heq, halias] at hlocal
    rw [FlowContext.isAffineExpr, hlocal] at haffine
    cases haffine
  · cases hsource

theorem untracked_rule (h : HoldsNone C b) : VisitRule C (untracked b) (Clear b) (ExprTyped C)
    (StmtTyped C) (DeferClear C b) where
  bookkeeping hs hsame := hs.of_same hsame
  states hs := hs.states
  swap hs hentry := hs.swap hentry
  localUse {id binding} kind _ := by
    by_cases heq : binding = b
    · subst heq
      exact safe_of_unchanged fun s hs => hs.run_localUse kind
    · exact safe_of_touches heq
        (within_checkLocalUse C touches_diagnose (touches_setPlace rfl) kind)
  placeMove htyped haffine hplace :=
    safe_of_touches (h.apart htyped haffine hplace)
      (within_applyPlaceMove touches_diagnose (touches_setPlace rfl))
  placeRead place := by
    by_cases heq : place.root = b
    · exact safe_of_unchanged fun s hs => hs.run_placeRead heq
    · exact safe_of_touches heq (within_checkPlaceRead touches_diagnose (touches_setPlace rfl))
  reassigned htyped howned :=
    safe_of_touches (h.owned htyped howned)
      (within_checkReassignment touches_diagnose (touches_setPlace rfl))
  localDrop {e binding} _ _ := by
    by_cases heq : binding = b
    · subst heq
      exact safe_of_unchanged fun s hs => hs.run_localDrop e.id
    · exact safe_of_touches heq (within_checkLocalDrop C touches_diagnose (touches_setPlace rfl)
        touches_recordCleanup e.id)
  fieldDrop {e place} htyped hdropped :=
    safe_of_touches (h.dropped htyped hdropped) (within_checkFieldDrop C touches_diagnose
      (touches_setPlace rfl) touches_recordCleanup touches_recordConsume e.id)
  bound := safe_bindLocal h
  removed := safe_removeLocal
  deferred hclear hs := hs.deferred hclear
  opened hs := hs.openScope
  closed hs := hs.closeScope
  joined := safe_finishBranches
  broke id := by
    refine safe_leaveLoop id fun states frame hstates hframe exit hmem => ?_
    simp only [List.mem_append, List.mem_singleton] at hmem hframe
    rcases hmem with (hmem | hmem) | hmem
    · exact hframe exit (.inl hmem)
    · exact hmem ▸ hstates
    · exact hframe exit (.inr hmem)
  continued id := by
    refine safe_leaveLoop id fun states frame hstates hframe exit hmem => ?_
    simp only [List.mem_append, List.mem_singleton] at hmem hframe
    rcases hmem with hmem | hmem | hmem
    · exact hframe exit (.inl hmem)
    · exact hframe exit (.inr hmem)
    · exact hmem ▸ hstates
  loopEntered := .intro fun _ s hs => hs.loopEntered
  loopLeft bodyId isLoop hentry hbase := .intro fun _ s hs => hs.loopLeft hentry hbase bodyId isLoop
  begun htyped hsource hs :=
    hs.observeStart (h.observed htyped.1 hsource) (h.alias_ne htyped.2 hsource)
  ended := .intro fun _ s hs => ⟨hs.states, hs.observing, hs.aliases,
    fun o hmem => hs.observations o (List.mem_of_mem_tail hmem), hs.frames⟩

/-! ### What the walk comes to -/

theorem safe_checkParam (h : HoldsNone C b) (param : HirParam) :
    Safe (untracked b) (checkParam C param) := by
  unfold checkParam
  split
  · rename_i hresource
    have hne : param.binding ≠ b := by
      intro heq
      rw [heq, h.local] at hresource
      cases hresource
    refine Maintains.ite (Safe.bind (Safe.intro fun _ s hs => ?_) fun _ =>
      safe_of_same (same_pushCleanup _)) (Safe.intro fun _ s hs => ?_)
    · exact hs.swap (@Clear.insert b (ofRoot param.binding) s.states hs.states hne _)
    · refine ⟨hs.states, ?_, hs.aliases, hs.observations, hs.frames⟩
      exact fun hmem => (List.mem_cons.mp hmem).elim hne.symm hs.observing
  · exact Safe.pure _

theorem untracked_bodyStart (h : HoldsNone C b) (f : HirFunction) : Untracked b (bodyStart C f) := by
  have hempty : Untracked b {} := by
    refine ⟨fun key _ => rfl, List.not_mem_nil, rfl, ?_, ?_⟩
    · exact fun o ho => absurd ho List.not_mem_nil
    · exact fun frame hframe => absurd hframe List.not_mem_nil
  have hparams : Safe (untracked b) (f.params.forM (checkParam C)) :=
    .forM fun param _ => safe_checkParam h param
  exact (hparams ⟨⟩ {} hempty).1.openScope

/-- What is asked of the parts of a body is so of every point its walk comes to. -/
theorem Visits.holds {f : HirFunction} {P : HirExpr → Prop} {Q : HirStmt → Prop}
    (hbody : f.body.Everywhere P Q) {point : Point} (h : Visits C f point s) :
    point.Holds (fun _ => True) P Q := by
  have hrule : VisitRule C (fun (_ : Unit) _ => True) (fun _ => True) P Q fun _ _ => True := by
    have hplaces : PlaceRule C (fun (_ : Unit) _ => True) (fun _ => True) P Q := by
      constructor <;> intros <;> first | trivial | exact .intro fun _ _ _ => trivial
    refine ⟨hplaces, ?_, ?_, ?_, ?_, ?_, ?_, ?_, ?_, ?_⟩ <;> intros <;>
      first | trivial | exact .intro fun _ _ _ => trivial
  exact (hrule.visits (i := ⟨⟩) hbody (fun _ _ _ => trivial) trivial h).1

/-! ### Once a `defer` names the local -/

/-- What protecting places leaves as it is. -/
structure Protects (s t : FlowState) : Prop where
  observing : t.observing = s.observing
  observationAliases : t.observationAliases = s.observationAliases
  observations : t.observations = s.observations

theorem protects_protectPlace (place : LocalPlace) (s : FlowState) :
    Protects s (after (protectPlace place) s) := by
  simp only [after, protectPlace, run_bind, run_get]
  by_cases hfree : placeState s.states place = .available
  · simp only [hfree, if_true]
    exact ⟨rfl, rfl, rfl⟩
  · simp only [hfree, if_false]
    exact ⟨rfl, rfl, rfl⟩

theorem lookup_protectPlace {key : LocalPlace} (hfree : placeState s.states place = .available) :
    (after (protectPlace place) s).states.lookup key =
      if key = place then some .dropScheduled else s.states.lookup key := by
  simp only [after, protectPlace, run_bind, run_get, hfree, if_true]
  by_cases hkey : key = place
  · subst hkey
    rw [if_pos rfl]
    exact AList.lookup_insert _
  · rw [if_neg hkey]
    exact AList.lookup_insert_ne hkey

theorem after_protectPlace (hheld : placeState s.states place ≠ .available) :
    after (protectPlace place) s = s := by
  simp only [after, protectPlace, run_bind, run_get, hheld, if_false]
  rfl

theorem placeState_ofRoot (states : PlaceStates) (root : LocalId) :
    placeState states (ofRoot root) = recorded states (ofRoot root) := Prefixes.firstAlong_nil

theorem protected_of_mem {places : List LocalPlace}
    (h : s.states.lookup (ofRoot b) = some .dropScheduled ∨
      s.states.lookup (ofRoot b) = none ∧ ofRoot b ∈ places) :
    (after (places.forM protectPlace) s).states.lookup (ofRoot b) = some .dropScheduled ∧
      Protects s (after (places.forM protectPlace) s) := by
  induction places generalizing s with
  | nil =>
    rcases h with h | h
    · exact ⟨h, rfl, rfl, rfl⟩
    · cases h.2
  | cons place places ih =>
    have hstep : (after (protectPlace place) s).states.lookup (ofRoot b) = some .dropScheduled ∨
        (after (protectPlace place) s).states.lookup (ofRoot b) = none ∧ ofRoot b ∈ places := by
      by_cases hfree : placeState s.states place = .available
      · rw [lookup_protectPlace hfree]
        by_cases hplace : ofRoot b = place
        · exact .inl (if_pos hplace)
        · rw [if_neg hplace]
          exact h.imp_right fun hnone => ⟨hnone.1, List.mem_of_ne_of_mem hplace hnone.2⟩
      · rw [after_protectPlace hfree]
        refine h.imp_right fun hnone => ⟨hnone.1, ?_⟩
        rcases List.mem_cons.mp hnone.2 with hplace | hmem
        · rw [← hplace, placeState_ofRoot, recorded, hnone.1] at hfree
          exact absurd rfl hfree
        · exact hmem
    have hrest := ih hstep
    have hfirst := protects_protectPlace place s
    exact ⟨hrest.1, hrest.2.observing.trans hfirst.observing,
      hrest.2.observationAliases.trans hfirst.observationAliases,
      hrest.2.observations.trans hfirst.observations⟩

theorem afterDefer_accepted (halias : ∀ place ∈ observedPlaces C e,
    s.observationAliases.lookup place.root = none) :
    after (afterDefer C e) s = after ((observedPlaces C e).forM protectPlace)
      (after (pushCleanup (.defer e.id)) (after (registerDefer C e) s)) := by
  have hnone : (observedPlaces C e).any (fun place =>
      (s.observationAliases.lookup place.root).isSome) = false := by
    apply List.any_eq_false.mpr
    intro place hmem
    rw [halias place hmem]
    exact Bool.false_ne_true
  simp only [afterDefer, after, run_bind, run_get, hnone, Bool.false_eq_true, if_false]

theorem marked_of_mem {places : List LocalPlace}
    (h : (∃ key : LocalPlace, key.root = b ∧ s.states.lookup key ≠ none) ∨
      Clear b s.states ∧ ∃ place ∈ places, place.root = b) :
    ∃ key : LocalPlace, key.root = b ∧
      (after (places.forM protectPlace) s).states.lookup key ≠ none := by
  induction places generalizing s with
  | nil =>
    rcases h with h | ⟨-, place, hmem, -⟩
    · exact h
    · cases hmem
  | cons place places ih =>
    have hstep : (∃ key : LocalPlace, key.root = b ∧
        (after (protectPlace place) s).states.lookup key ≠ none) ∨
        Clear b (after (protectPlace place) s).states ∧ ∃ place ∈ places, place.root = b := by
      by_cases hfree : placeState s.states place = .available
      · rcases h with ⟨key, hkey, hsome⟩ | ⟨hclear, named, hmem, hroot⟩
        · refine .inl ⟨key, hkey, ?_⟩
          rw [lookup_protectPlace hfree]
          split
          · exact Option.some_ne_none _
          · exact hsome
        · by_cases hplace : place.root = b
          · refine .inl ⟨place, hplace, ?_⟩
            rw [lookup_protectPlace hfree, if_pos rfl]
            exact Option.some_ne_none _
          · refine .inr ⟨fun key hkey => ?_, named, ?_, hroot⟩
            · have hne : key ≠ place := fun heq => hplace (heq ▸ hkey)
              rw [lookup_protectPlace hfree, if_neg hne]
              exact hclear key hkey
            · have hne : named ≠ place := fun heq => hplace (heq ▸ hroot)
              exact List.mem_of_ne_of_mem hne hmem
      · rw [after_protectPlace hfree]
        refine h.imp_right fun hnamed => ?_
        obtain ⟨hclear, named, hmem, hroot⟩ := hnamed
        refine ⟨hclear, named, List.mem_of_ne_of_mem (fun heq => hfree ?_) hmem, hroot⟩
        -- nothing is recorded for the local, so a place of it is free
        rw [← heq, placeState_eq_readDown, readDown_eq_available]
        intro key hkey
        rw [recorded, hclear key ((isAncestorOf_iff.mp hkey).1.trans hroot)]
        rfl
    exact ih hstep

/-- A deferred call leaves the local clear exactly where it is clear of it. -/
theorem Untracked.deferred_iff (h : Untracked b s) :
    Clear b (after (afterDefer C e) s).states ↔ DeferClear C b e s := by
  constructor
  · intro hclear
    by_contra hmarks
    unfold DeferClear at hmarks
    push Not at hmarks
    obtain ⟨hunaliased, named, hmem, hroot⟩ := hmarks
    have halias : ∀ place ∈ observedPlaces C e, s.observationAliases.lookup place.root = none :=
      fun place hplace => Option.not_isSome_iff_eq_none.mp (hunaliased place hplace)
    have hsame : Same s (after (pushCleanup (.defer e.id)) (after (registerDefer C e) s)) :=
      IsTrans.trans _ _ _ (same_registerDefer C e s) (same_pushCleanup _ _)
    obtain ⟨key, hkey, hsome⟩ := marked_of_mem (.inr ⟨(h.of_same hsame).states, named, hmem, hroot⟩)
    rw [← afterDefer_accepted halias] at hsome
    exact hsome (hclear key hkey)
  · exact fun hclear => (h.deferred hclear).states

theorem Untracked.deferred_reported (h : Untracked b s) (hnamed : ofRoot b ∈ observedPlaces C e)
    (halias : ∀ place ∈ observedPlaces C e, s.observationAliases.lookup place.root = none)
    {kind : ConsumeKind} (hkind : kind ≠ .read) :
    (after (checkLocalUse C b kind) (after (afterDefer C e) s)).diagnostics =
      (after (afterDefer C e) s).diagnostics ++ [Codes.moveAfterDeferCaptured] := by
  have hafter := afterDefer_accepted halias
  have hsame : Same s (after (pushCleanup (.defer e.id)) (after (registerDefer C e) s)) :=
    IsTrans.trans _ _ _ (same_registerDefer C e s) (same_pushCleanup _ _)
  have hplain := h.of_same hsame
  obtain ⟨hscheduled, hprotects⟩ :=
    protected_of_mem (.inr ⟨hplain.states (ofRoot b) rfl, hnamed⟩)
  rw [← hafter] at hscheduled hprotects
  generalize after (afterDefer C e) s = t at hscheduled hprotects ⊢
  have hobserving : b ∉ t.observing := hprotects.observing ▸ hplain.observing
  have hrejects : t.rejectsOwnership (ofRoot b) = none := by
    have hreject := hplain.rejectsNone
    simp only [FlowState.rejectsOwnership, conflictingObservation, hprotects.observing,
      hprotects.observationAliases, hprotects.observations] at hreject ⊢
    exact hreject
  unfold checkLocalUse
  rw [if_neg hkind]
  simp only [after, checkConsume, run_bind, run_get, hobserving, if_false,
    run_rejectOwnership_none hrejects, Bool.false_eq_true, hscheduled, run_refuse]

/-! ### Arguments -/

section
variable {P : HirExpr → Prop} {Q : HirStmt → Prop} {e' : HirExpr}

theorem blockValue_everywhere {block : HirBlock} (h : block.Everywhere P Q)
    (hmem : e' ∈ blockValue block) : e'.Everywhere P Q := by
  obtain ⟨id, statements, tail⟩ := block
  unfold HirBlock.Everywhere at h
  cases tail with
  | none => cases hmem
  | some tail =>
    unfold ValueEverywhere at h
    rw [List.mem_singleton.mp hmem]
    exact h.2

theorem bodyValue_everywhere {body : HirMatchArmBody} (h : body.Everywhere P Q)
    (hmem : e' ∈ bodyValue body) : e'.Everywhere P Q := by
  unfold HirMatchArmBody.Everywhere at h
  cases body with
  | expr e =>
    rw [List.mem_singleton.mp hmem]
    exact h
  | block block => exact blockValue_everywhere h hmem

theorem elseValue_everywhere {branch : Option HirElse} (h : ElseEverywhere P Q branch)
    (hmem : e' ∈ elseValue branch) : e'.Everywhere P Q := by
  unfold ElseEverywhere at h
  rcases branch with _ | block | e
  · cases hmem
  · exact blockValue_everywhere h hmem
  · rw [List.mem_singleton.mp hmem]
    exact h

theorem matchArms_everywhere {arms : List HirMatchArm} (h : MatchArmsEverywhere P Q arms)
    (hmem : e' ∈ arms.flatMap matchArmValue) : e'.Everywhere P Q := by
  induction arms with
  | nil => cases hmem
  | cons arm arms ih =>
    obtain ⟨pattern, body⟩ := arm
    unfold MatchArmsEverywhere at h
    rcases List.mem_append.mp hmem with hmem | hmem
    · exact bodyValue_everywhere h.1 hmem
    · exact ih h.2 hmem

theorem handleArms_everywhere {arms : List HirHandleArm} (h : HandleArmsEverywhere P Q arms)
    (hmem : e' ∈ arms.flatMap handleArmValue) : e'.Everywhere P Q := by
  induction arms with
  | nil => cases hmem
  | cons arm arms ih =>
    obtain ⟨armKind, body⟩ := arm
    unfold HandleArmsEverywhere at h
    rcases List.mem_append.mp hmem with hmem | hmem
    · exact bodyValue_everywhere h.1 hmem
    · exact ih h.2 hmem

theorem forwards_everywhere (h : e.Everywhere P Q) (hmem : e' ∈ forwards C e) :
    e'.Everywhere P Q := by
  cases e with
  | field id base =>
    unfold HirExpr.Everywhere at h
    simp only [forwards] at hmem
    split at hmem
    · rw [List.mem_singleton.mp hmem]
      exact h.2
    · cases hmem
  | unary | cast | tryExpr =>
    unfold HirExpr.Everywhere at h
    rw [List.mem_singleton.mp hmem]
    exact h.2
  | ifExpr id condition thenBranch elseBranch =>
    unfold HirExpr.Everywhere at h
    rcases List.mem_append.mp hmem with hmem | hmem
    · exact blockValue_everywhere h.2.2.1 hmem
    · exact elseValue_everywhere h.2.2.2 hmem
  | matchExpr id scrutinee arms =>
    unfold HirExpr.Everywhere at h
    exact matchArms_everywhere h.2.2 hmem
  | handle id operand arms =>
    unfold HirExpr.Everywhere at h
    rcases List.mem_cons.mp hmem with heq | hmem
    · exact heq ▸ h.2.1
    · exact handleArms_everywhere h.2.2 hmem
  | block block =>
    unfold HirExpr.Everywhere at h
    exact blockValue_everywhere h.2 hmem
  | _ => cases hmem

theorem args_everywhere {args : List HirExpr} (h : ArgsEverywhere P Q args) (hmem : e' ∈ args) :
    e'.Everywhere P Q := by
  induction args with
  | nil => cases hmem
  | cons arg args ih =>
    unfold ArgsEverywhere at h
    rcases List.mem_cons.mp hmem with heq | hmem
    · exact heq ▸ h.1
    · exact ih h.2 hmem

end

theorem exprTyped_place (h : ExprTyped C e) (hplace : C.resolvePlace e = some place) :
    PlaceTyped C e := by
  cases e with
  | assign => cases hplace
  | _ => exact h

theorem everywhere_self {P : HirExpr → Prop} {Q : HirStmt → Prop} (h : e.Everywhere P Q)
    (hplace : C.resolvePlace e = some place) : P e := by
  cases e with
  | localVar id binding =>
    unfold HirExpr.Everywhere at h
    exact h
  | field id base =>
    unfold HirExpr.Everywhere at h
    exact h.1
  | _ => cases hplace

theorem Passes.apart (hnone : HoldsNone C b) {Q : HirStmt → Prop}
    (htyped : e.Everywhere (ExprTyped C) Q) (h : Passes C e place) : place.root ≠ b := by
  induction h with
  | named haffine hplace =>
    exact hnone.apart (exprTyped_place (everywhere_self htyped hplace) hplace) haffine hplace
  | forwarded haffine hmem _ ih => exact ih (forwards_everywhere htyped hmem)

/-- As long as the walk comes to no `defer` that protects a local which owns nothing, nothing
is recorded for it at any point, using it changes and reports nothing, and no argument
passes it. A `defer` that is not clear of it marks it, and where that names it as a whole
the next move of it is reported. -/
theorem unrestricted_until_deferred {f : HirFunction} (hnone : HoldsNone C b)
    (hbody : f.body.Everywhere (ExprTyped C) (StmtTyped C))
    (hdefers : ∀ e s, Visits C f (.stmt (.defer e)) s →
      DeferClear C b e (after (checkExprCtxInner C e .read) s))
    {point : Point} (h : Visits C f point s) :
    (∀ place, place.root = b →
      s.states.lookup place = none ∧ (checkPlaceRead place).run s = (⟨⟩, s)) ∧
    (∀ kind, (checkLocalUse C b kind).run s = (⟨⟩, s)) ∧
    (∀ id callee args kind, point = .expr (.call id callee args) kind →
      ∀ arg ∈ args, ∀ place, Passes C arg place → place.root ≠ b) ∧
    (∀ e, Clear b (after (afterDefer C e) s).states ↔ DeferClear C b e s) ∧
    ∀ e kind, ofRoot b ∈ observedPlaces C e →
      (∀ place ∈ observedPlaces C e, s.observationAliases.lookup place.root = none) →
      kind ≠ .read →
      (after (checkLocalUse C b kind) (after (afterDefer C e) s)).diagnostics =
        (after (afterDefer C e) s).diagnostics ++ [Codes.moveAfterDeferCaptured] := by
  obtain ⟨hpoint, hs⟩ := (untracked_rule hnone).visits (i := ⟨⟩) hbody hdefers (untracked_bodyStart hnone f) h
  refine ⟨fun place hroot => ⟨hs.states place hroot, hs.run_placeRead hroot⟩, hs.run_localUse, ?_,
    fun e => hs.deferred_iff, ?_⟩
  · intro id callee args kind heq arg hmem place hpasses
    subst heq
    unfold Point.Holds HirExpr.Everywhere at hpoint
    exact hpasses.apart hnone (args_everywhere hpoint.2.2 hmem)
  · exact fun e kind hnamed halias hkind => hs.deferred_reported hnamed halias hkind

end

/-- Functions over numbers. -/
def numberContext : FlowContext := { fileContext with
  localTypes := fun _ => some .i64
  exprTypes := fun _ => some .i64
  takeFlags := fun _ => some [false] }

/-- `log(n)` -/
def logNumber : HirExpr := .call ⟨1⟩ (.function ⟨2⟩ ⟨5⟩) [.localVar ⟨3⟩ ⟨0⟩]

/-- `log(k)` -/
def logOther : HirExpr := .call ⟨1⟩ (.function ⟨2⟩ ⟨5⟩) [.localVar ⟨3⟩ ⟨2⟩]

/-- `func f(n: i64, k: i64) { defer log(k); value m = n; }` -/
def copiesNumber : HirFunction where
  id := ⟨9⟩
  params := [⟨⟨0⟩, false⟩, ⟨⟨2⟩, false⟩]
  body := .mk ⟨20⟩ [.defer logOther, .binding ⟨1⟩ (.localVar ⟨4⟩ ⟨0⟩)] none

/-- `func f(n: i64) { defer log(n); value m = n; }` -/
def defersNumber : HirFunction where
  id := ⟨9⟩
  params := [⟨⟨0⟩, false⟩]
  body := .mk ⟨20⟩ [.defer logNumber, .binding ⟨1⟩ (.localVar ⟨4⟩ ⟨0⟩)] none

theorem numbers_hold_none (b : LocalId) : HoldsNone numberContext b := by
  intro place ty _ hty
  obtain ⟨root, projections⟩ := place
  cases projections with
  | nil =>
    cases hty
    rfl
  | cons projection projections =>
    cases projection with
    | field owner field => cases hty
    | variantField => cases hty

theorem copiesNumber_typed :
    copiesNumber.body.Everywhere (ExprTyped numberContext) (StmtTyped numberContext) := by
  have htyped : ∀ id binding, PlaceTyped numberContext (.localVar id binding) := by
    intro id binding place hplace
    cases hplace
    rfl
  have hfunction : ∀ id item, PlaceTyped numberContext (.function id item) :=
    fun _ _ _ hplace => by cases hplace
  have hcall : ∀ id callee args, PlaceTyped numberContext (.call id callee args) :=
    fun _ _ _ _ hplace => by cases hplace
  simp only [copiesNumber, logOther, HirBlock.Everywhere, StmtsEverywhere, HirStmt.Everywhere,
    HirExpr.Everywhere, ArgsEverywhere, ValueEverywhere, StmtTyped, ExprTyped, and_true, true_and]
  exact ⟨⟨hcall _ _ _, hfunction _ _, htyped _ _⟩, htyped _ _⟩

theorem copiesNumber_defers : copiesNumber.body.Everywhere (fun _ => True)
    fun st => ∀ e, st = .defer e → e = logOther := by
  simp only [copiesNumber, logOther, HirBlock.Everywhere, StmtsEverywhere, HirStmt.Everywhere,
    HirExpr.Everywhere, ArgsEverywhere, ValueEverywhere, and_true]
  exact ⟨fun e heq => by cases heq; rfl, fun e heq => by cases heq⟩

/-- Where the call that is deferred names another number, this one is moved at will. -/
theorem unrestricted_until_deferred_copied :
    (checkLocalUse numberContext ⟨0⟩ .other).run
        (after (checkStmt numberContext (.defer logOther)) (bodyStart numberContext copiesNumber)) =
      (⟨⟩, after (checkStmt numberContext (.defer logOther)) (bodyStart numberContext copiesNumber)) := by
  have hvisits : Visits numberContext copiesNumber (.stmt (.binding ⟨1⟩ (.localVar ⟨4⟩ ⟨0⟩)))
      (after (checkStmt numberContext (.defer logOther)) (bodyStart numberContext copiesNumber)) :=
    ((Relation.ReflTransGen.refl.tail .blockStmts).tail (.nextStmt rfl)).tail .firstStmt
  have hdefers : ∀ e s, Visits numberContext copiesNumber (.stmt (.defer e)) s →
      DeferClear numberContext ⟨0⟩ e (after (checkExprCtxInner numberContext e .read) s) := by
    intro e s h
    have hpoint := h.holds copiesNumber_defers
    unfold Point.Holds HirStmt.Everywhere at hpoint
    rw [hpoint.1 e rfl]
    exact .inr (by decide)
  exact (unrestricted_until_deferred (numbers_hold_none ⟨0⟩) copiesNumber_typed hdefers hvisits).2.1 .other

/-- A number is reported as moved away from a `defer` that only reads it. -/
theorem number_moved_after_defer : HoldsNone numberContext ⟨0⟩ ∧
    (after (checkFunction numberContext defersNumber) {}).diagnostics =
      [Codes.moveAfterDeferCaptured] :=
  ⟨numbers_hold_none ⟨0⟩, by decide⟩

end Napitia.Resourceck

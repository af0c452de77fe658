import Mathlib.Data.List.Infix
import Napitia.Resourceck.Flow

/-!
# What the walk never takes back

Every part of the walk only adds to the diagnostics and to the cleanup it records, and
the parts that neither record nor register any cleanup only to the diagnostics.
-/
namespace Napitia.Resourceck
open Nir Lower Stateful
open Hir (ExprId)
open Hir.Body

/-- The diagnostics and the recorded cleanup of one state, and more of both. -/
structure Grows (s s' : FlowState) : Prop where
  diagnostics : s.diagnostics <+: s'.diagnostics
  cleanupEdges : s.cleanupEdges <:+ s'.cleanupEdges

instance : Std.Refl Grows := ⟨fun _ => ⟨List.prefix_rfl, List.suffix_rfl⟩⟩

instance : IsTrans FlowState Grows :=
  ⟨fun _ _ _ h h' =>
    ⟨h.diagnostics.trans h'.diagnostics, h.cleanupEdges.trans h'.cleanupEdges⟩⟩

theorem grows_of_eq {s s' : FlowState} (hd : s'.diagnostics = s.diagnostics)
    (hc : s'.cleanupEdges = s.cleanupEdges) : Grows s s' :=
  ⟨hd ▸ List.prefix_rfl, hc ▸ List.suffix_rfl⟩

/-- More diagnostics, and the cleanup recorded and pending as it was. -/
structure Quiet (s s' : FlowState) : Prop where
  diagnostics : s.diagnostics <+: s'.diagnostics
  cleanupEdges : s'.cleanupEdges = s.cleanupEdges
  pendingCleanup : s'.pendingCleanup = s.pendingCleanup

instance : Std.Refl Quiet := ⟨fun _ => ⟨List.prefix_rfl, rfl, rfl⟩⟩

instance : IsTrans FlowState Quiet :=
  ⟨fun _ _ _ h h' => ⟨h.diagnostics.trans h'.diagnostics, h'.cleanupEdges.trans h.cleanupEdges,
    h'.pendingCleanup.trans h.pendingCleanup⟩⟩

theorem quiet_of_eq {s s' : FlowState} (hd : s'.diagnostics = s.diagnostics)
    (hc : s'.cleanupEdges = s.cleanupEdges) (hp : s'.pendingCleanup = s.pendingCleanup) :
    Quiet s s' :=
  ⟨hd ▸ List.prefix_rfl, hc, hp⟩

abbrev Keeps {α : Type} (x : FlowM α) : Prop := Within Grows x

abbrev Quiets {α : Type} (x : FlowM α) : Prop := Within Quiet x

theorem Quiets.keeps {α : Type} {x : FlowM α} (h : Quiets x) : Keeps x :=
  fun s => ⟨(h s).diagnostics, (h s).cleanupEdges ▸ List.suffix_rfl⟩

section
variable (C : FlowContext) {α : Type} {x : FlowM α}

theorem quiet_diagnose (code : String) : Quiets (diagnose code) :=
  fun _ => ⟨List.prefix_append _ _, rfl, rfl⟩

theorem keeps_whenever {x : FlowM Unit} (c : Bool) (hx : Keeps x) : Keeps (whenever c x) :=
  .ite hx (.pure _)

theorem keeps_recordCleanup (id : ExprId) (actions : List CleanupAction) :
    Keeps (recordCleanup id actions) :=
  fun _ => ⟨List.prefix_rfl, List.suffix_cons _ _⟩

theorem quiet_setPlace (place : LocalPlace) (state : ResourceState) :
    Quiets (setPlace place state) := fun _ => quiet_of_eq rfl rfl rfl

theorem quiet_insertState (place : LocalPlace) (state : ResourceState) :
    Quiets (insertState place state) := fun _ => quiet_of_eq rfl rfl rfl

theorem quiet_recordConsume (id : ExprId) (info : ConsumeInfo) : Quiets (recordConsume id info) :=
  fun _ => quiet_of_eq rfl rfl rfl

theorem keeps_pushCleanup (action : CleanupAction) : Keeps (pushCleanup action) :=
  fun _ => grows_of_eq rfl rfl

theorem keeps_truncateCleanup (marker : ℕ) : Keeps (truncateCleanup marker) :=
  fun _ => grows_of_eq rfl rfl

theorem quiet_swapStates (states : PlaceStates) : Quiets (swapStates states) :=
  fun _ => quiet_of_eq rfl rfl rfl

/-! ### What every use of a place keeps -/

section
variable {R : FlowState → FlowState → Prop} [Std.Refl R] [IsTrans FlowState R] {place : LocalPlace}
  {binding : LocalId}

omit [Std.Refl R] in
theorem within_refuse (hd : ∀ code, Within R (diagnose code))
    (hset : ∀ state, Within R (setPlace place state)) (code : String) :
    Within R (refuse code place) :=
  (hd code).bind fun _ => hset .error

theorem within_rejectOwnership (hd : ∀ code, Within R (diagnose code)) :
    Within R (rejectOwnership place) := by
  refine .get_bind fun s => ?_
  cases s.rejectsOwnership place with
  | none => exact Within.pure _ s
  | some code => exact ((hd code).bind fun _ => .pure _) s

theorem within_checkPlaceRead (hd : ∀ code, Within R (diagnose code))
    (hset : ∀ state, Within R (setPlace place state)) : Within R (checkPlaceRead place) := by
  refine .get_bind fun s => ?_
  cases placeState s.states place with
  | available | dropScheduled | error => exact Within.pure _ s
  | moved | dropped => exact within_refuse hd hset _ s

theorem within_rejectPartialWholeUse (hd : ∀ code, Within R (diagnose code)) :
    Within R (rejectPartialWholeUse C place) := by
  refine .get_bind fun s => ?_
  cases C.placeTy place with
  | none => exact Within.pure _ s
  | some ty =>
    exact Within.ite (.pure _) (.ite ((hd _).bind fun _ => .pure _)
      ((hd _).bind fun _ => .pure _)) s

theorem within_checkRead (hd : ∀ code, Within R (diagnose code))
    (hset : ∀ state, Within R (setPlace (ofRoot binding) state)) :
    Within R (checkRead C binding) := by
  refine .get_bind fun s => ?_
  refine Within.ite (.pure _) ?_ s
  cases s.states.lookup (ofRoot binding) with
  | none => exact .pure _
  | some state =>
    cases state with
    | available => exact (within_rejectPartialWholeUse C hd).bind fun _ => .pure _
    | dropScheduled | error => exact .pure _
    | moved | dropped => exact within_refuse hd hset _

theorem within_applyPlaceMove (hd : ∀ code, Within R (diagnose code))
    (hset : ∀ state, Within R (setPlace place state)) : Within R (applyPlaceMove place) := by
  refine (within_rejectOwnership hd).bind fun _ => .ite (.pure _) (.get_bind fun s => ?_)
  cases placeState s.states place with
  | available => exact hset _ s
  | error => exact Within.pure _ s
  | moved | dropped | dropScheduled => exact within_refuse hd hset _ s

theorem within_checkConsume (hd : ∀ code, Within R (diagnose code))
    (hset : ∀ state, Within R (setPlace (ofRoot binding) state)) :
    Within R (checkConsume C binding) := by
  refine .get_bind fun s => Within.ite (hd _) ?_ s
  refine (within_rejectOwnership hd).bind fun _ => .ite (.pure _) (.get_bind fun s => ?_)
  cases s.states.lookup (ofRoot binding) with
  | none => exact Within.pure _ s
  | some state =>
    cases state with
    | available =>
      exact ((within_rejectPartialWholeUse C hd).bind fun _ => .ite (.pure _) (hset _)) s
    | error => exact Within.pure _ s
    | moved | dropped | dropScheduled => exact within_refuse hd hset _ s

theorem within_checkLocalUse (hd : ∀ code, Within R (diagnose code))
    (hset : ∀ state, Within R (setPlace (ofRoot binding) state)) (kind : ConsumeKind) :
    Within R (checkLocalUse C binding kind) :=
  .ite (within_checkRead C hd hset) (within_checkConsume C hd hset)

theorem within_dropAvailable (hd : ∀ code, Within R (diagnose code))
    (hset : ∀ state, Within R (setPlace place state))
    (hclean : ∀ id actions, Within R (recordCleanup id actions)) (id : ExprId) :
    Within R (dropAvailable C place id) := by
  refine .get_bind fun s => Within.ite ((within_refuse hd hset _).bind fun _ => .pure _) ?_ s
  exact (hclean _ _).bind fun _ => .pure _

theorem within_checkLocalDrop (hd : ∀ code, Within R (diagnose code))
    (hset : ∀ state, Within R (setPlace (ofRoot binding) state))
    (hclean : ∀ id actions, Within R (recordCleanup id actions)) (id : ExprId) :
    Within R (checkLocalDrop C binding id) := by
  refine .get_bind fun s => Within.ite (hd _) ?_ s
  refine (within_rejectOwnership hd).bind fun _ => .ite (.pure _) (.get_bind fun s => ?_)
  cases s.states.lookup (ofRoot binding) with
  | none => exact Within.pure _ s
  | some state =>
    cases state with
    | available =>
      exact ((within_dropAvailable C hd hset hclean id).bind fun _ => .ite (hset _) (.pure _)) s
    | error => exact Within.pure _ s
    | moved | dropped | dropScheduled => exact within_refuse hd hset _ s

theorem within_checkFieldDrop (hd : ∀ code, Within R (diagnose code))
    (hset : ∀ state, Within R (setPlace place state))
    (hclean : ∀ id actions, Within R (recordCleanup id actions))
    (hconsume : ∀ id info, Within R (recordConsume id info)) (id : ExprId) :
    Within R (checkFieldDrop C place id) := by
  refine (within_rejectOwnership hd).bind fun _ => .ite (.pure _) (.get_bind fun s => ?_)
  cases placeState s.states place with
  | available =>
    exact ((within_dropAvailable C hd hset hclean id).bind fun _ =>
      .ite ((hconsume _ _).bind fun _ => hset _) (.pure _)) s
  | error => exact Within.pure _ s
  | moved | dropped | dropScheduled => exact within_refuse hd hset _ s

theorem within_checkReassignment (hd : ∀ code, Within R (diagnose code))
    (hset : ∀ state, Within R (setPlace place state)) : Within R (checkReassignment place) := by
  refine (within_rejectOwnership hd).bind fun _ => .ite (.pure _) (.get_bind fun s => ?_)
  cases placeState s.states place with
  | moved | dropped => exact hset _ s
  | error => exact Within.pure _ s
  | available | dropScheduled => exact within_refuse hd hset _ s

end

theorem quiet_refuse (code : String) (place : LocalPlace) : Quiets (refuse code place) :=
  within_refuse quiet_diagnose (quiet_setPlace place) code

theorem quiet_rejectOwnership (place : LocalPlace) : Quiets (rejectOwnership place) :=
  within_rejectOwnership quiet_diagnose

theorem quiet_checkPlaceRead (place : LocalPlace) : Quiets (checkPlaceRead place) :=
  within_checkPlaceRead quiet_diagnose (quiet_setPlace place)

theorem quiet_applyPlaceMove (place : LocalPlace) : Quiets (applyPlaceMove place) :=
  within_applyPlaceMove quiet_diagnose (quiet_setPlace place)

theorem quiet_checkLocalUse (binding : LocalId) (kind : ConsumeKind) :
    Quiets (checkLocalUse C binding kind) :=
  within_checkLocalUse C quiet_diagnose (quiet_setPlace _) kind

theorem quiet_checkReassignment (place : LocalPlace) : Quiets (checkReassignment place) :=
  within_checkReassignment quiet_diagnose (quiet_setPlace place)

theorem keeps_checkLocalDrop (binding : LocalId) (id : ExprId) :
    Keeps (checkLocalDrop C binding id) :=
  within_checkLocalDrop C (fun _ => (quiet_diagnose _).keeps) (fun _ => (quiet_setPlace _ _).keeps)
    keeps_recordCleanup id

theorem keeps_checkFieldDrop (place : LocalPlace) (id : ExprId) :
    Keeps (checkFieldDrop C place id) :=
  within_checkFieldDrop C (fun _ => (quiet_diagnose _).keeps) (fun _ => (quiet_setPlace _ _).keeps)
    keeps_recordCleanup (fun _ _ => (quiet_recordConsume _ _).keeps) id

/-! ### The parts of the walk -/

theorem keeps_recordExit (id : ExprId) (marker : ℕ) : Keeps (recordExit C id marker) :=
  .get_bind fun s => keeps_recordCleanup id _ s

theorem quiet_recordObservationExit (exit : ExprId) (marker : ℕ) :
    Quiets (recordObservationExit exit marker) := by
  refine .get_bind fun s => ?_
  rw [run_ite]
  split
  · exact quiet_of_eq rfl rfl rfl
  · exact Within.pure _ s

theorem keeps_deferScope (hx : Keeps x) : Keeps (deferScope x) := by
  refine .bind ?_ fun _ => hx.bind fun _ => .bind ?_ fun _ => .pure _
  · exact fun _ => grows_of_eq rfl rfl
  · exact fun _ => grows_of_eq rfl rfl

theorem keeps_blockCtx {x : FlowM Unit} (id : ExprId) (hx : Keeps x) : Keeps (blockCtx C id x) := by
  refine .get_bind fun s => Within.bind (keeps_deferScope hx) (fun _ => ?_) s
  exact (keeps_whenever _ (keeps_recordExit C id _)).bind fun _ => keeps_truncateCleanup _

theorem keeps_exprCtx {x : FlowM Unit} (expr : HirExpr) (kind : ConsumeKind) (hx : Keeps x) :
    Keeps (exprCtx C expr kind x) :=
  hx.bind fun _ => keeps_whenever _ (keeps_recordExit C _ _)

section
variable {R : FlowState → FlowState → Prop} [Std.Refl R] [IsTrans FlowState R]
  (hd : ∀ code, Within R (diagnose code))
include hd

set_option linter.unusedSectionVars false

mutual

theorem within_rejectLeakedTemporary : ∀ expr, Within R (rejectLeakedTemporary C expr)
  | .call .. | .recordLiteral .. => by
    unfold rejectLeakedTemporary
    exact .ite (hd _) (.pure _)
  | .block block => by
    unfold rejectLeakedTemporary
    exact within_rejectLeakedTail block
  | .ifExpr _ _ thenBranch elseBranch => by
    unfold rejectLeakedTemporary
    refine (within_rejectLeakedTail thenBranch).bind fun _ => ?_
    match elseBranch with
    | none => exact .pure _
    | some (.block block) => exact within_rejectLeakedTail block
    | some (.ifExpr inner) => exact .ite (.pure _) (within_rejectLeakedTemporary inner)
  | .matchExpr _ _ arms => by
    unfold rejectLeakedTemporary
    exact within_rejectLeakedMatchArms arms
  | .handle _ _ arms => by
    unfold rejectLeakedTemporary
    exact within_rejectLeakedHandleArms arms
  | .int .. | .float .. | .str .. | .char .. | .bool .. | .localVar .. | .function ..
  | .caseRef .. | .protocolMethodRef .. | .unary .. | .binary .. | .assign .. | .field ..
  | .cast .. | .tryExpr .. | .returnExpr .. | .breakExpr .. | .continueExpr .. | .raise ..
  | .error .. => by
    unfold rejectLeakedTemporary
    exact .pure _

theorem within_rejectLeakedTail : ∀ block, Within R (rejectLeakedTail C block)
  | .mk _ _ none => by
    unfold rejectLeakedTail
    exact .pure _
  | .mk _ _ (some tail) => by
    unfold rejectLeakedTail
    exact .ite (.pure _) (within_rejectLeakedTemporary tail)

theorem within_rejectLeakedArmBody : ∀ body, Within R (rejectLeakedArmBody C body)
  | .expr expr => by
    unfold rejectLeakedArmBody
    exact .ite (.pure _) (within_rejectLeakedTemporary expr)
  | .block block => by
    unfold rejectLeakedArmBody
    exact within_rejectLeakedTail block

theorem within_rejectLeakedMatchArms : ∀ arms, Within R (rejectLeakedMatchArms C arms)
  | [] => by
    unfold rejectLeakedMatchArms
    exact .pure _
  | .mk _ body :: rest => by
    unfold rejectLeakedMatchArms
    exact (within_rejectLeakedArmBody body).bind fun _ => within_rejectLeakedMatchArms rest

theorem within_rejectLeakedHandleArms : ∀ arms, Within R (rejectLeakedHandleArms C arms)
  | [] => by
    unfold rejectLeakedHandleArms
    exact .pure _
  | .mk _ body :: rest => by
    unfold rejectLeakedHandleArms
    exact (within_rejectLeakedArmBody body).bind fun _ => within_rejectLeakedHandleArms rest

end

end

theorem quiet_rejectLeakedTemporary (expr : HirExpr) : Quiets (rejectLeakedTemporary C expr) :=
  within_rejectLeakedTemporary C quiet_diagnose expr

theorem quiet_rejectLeakedTail (block : HirBlock) : Quiets (rejectLeakedTail C block) :=
  within_rejectLeakedTail C quiet_diagnose block

theorem quiet_rejectMixedObserveTakeAliases (callee : HirExpr) (args : List HirExpr) :
    Quiets (rejectMixedObserveTakeAliases C callee args) :=
  .ite (quiet_diagnose _) (.ite (quiet_diagnose _) (.pure _))

theorem quiet_registerDefer (expr : HirExpr) : Quiets (registerDefer C expr) := by
  unfold registerDefer
  split
  · split
    · exact .pure _
    · refine .ite (quiet_diagnose _) (.get_bind fun s => ?_)
      split
      · exact Within.pure _ s
      · exact quiet_of_eq rfl rfl rfl
  · exact .pure _

theorem quiet_protectPlace (place : LocalPlace) : Quiets (protectPlace place) := by
  refine .get_bind fun s => ?_
  rw [run_ite]
  split
  · exact quiet_of_eq rfl rfl rfl
  · exact Within.pure _ s

theorem keeps_afterDefer (expr : HirExpr) : Keeps (afterDefer C expr) :=
  .get_bind fun s => Within.ite (quiet_diagnose _).keeps
    ((quiet_registerDefer C expr).keeps.bind fun _ => (keeps_pushCleanup _).bind fun _ =>
      .forM fun place => (quiet_protectPlace place).keeps) s

theorem keeps_bindLocal (binding : LocalId) : Keeps (bindLocal C binding) :=
  keeps_whenever _ ((quiet_insertState _ _).keeps.bind fun _ => keeps_pushCleanup _)

theorem quiet_removeLocal (binding : LocalId) : Quiets (removeLocal binding) :=
  fun _ => quiet_of_eq rfl rfl rfl

theorem quiet_checkCompoundOrigin (id : ExprId) (kind : ConsumeKind) :
    Quiets (checkCompoundOrigin C id kind) :=
  .ite ((quiet_diagnose _).bind fun _ => .pure _) (.pure _)

theorem quiet_finishBranches (kind : ConsumeKind) (entry : PlaceStates)
    (branches : List (PlaceStates × Bool)) : Quiets (finishBranches kind entry branches) := by
  refine .bind ?_ fun _ => .ite (quiet_diagnose _) (.pure _)
  exact fun _ => quiet_of_eq rfl rfl rfl

theorem keeps_armCtx {x : FlowM (ExprId × Bool × Bool)} (entry : PlaceStates)
    (locals : List LocalId) (hx : Keeps x) : Keeps (armCtx C entry locals x) := by
  refine (quiet_swapStates entry).keeps.bind fun _ => .get_bind fun s => ?_
  refine Within.bind (Within.forM (keeps_bindLocal C)) (fun _ => hx.bind fun _ => ?_) s
  refine (keeps_whenever _ (keeps_recordExit C _ _)).bind fun _ => ?_
  exact (keeps_truncateCleanup _).bind fun _ => (Quiets.keeps (.forM quiet_removeLocal)).bind fun _ =>
    Within.get.bind fun _ => .pure _

theorem quiet_pushLoop : Quiets pushLoop := fun _ => quiet_of_eq rfl rfl rfl

theorem quiet_popLoop (entry : PlaceStates) (afterBase : Option PlaceStates) (bodyId : ExprId)
    (isLoop : Bool) : Quiets (popLoop C entry afterBase bodyId isLoop) := by
  refine (quiet_swapStates entry).bind fun _ => .get_bind fun s => ?_
  cases hstack : s.loopStack with
  | nil => exact Within.pure _ s
  | cons frame rest => exact ⟨List.prefix_append _ _, rfl, rfl⟩

theorem keeps_leaveLoop (id : ExprId) (onFrame : PlaceStates → LoopFrame → LoopFrame) :
    Keeps (leaveLoop C id onFrame) := by
  refine .get_bind fun s => ?_
  cases hstack : s.loopStack with
  | nil => exact Within.pure _ s
  | cons frame rest =>
    refine Within.bind (quiet_recordObservationExit _ _).keeps
      (fun _ => (keeps_recordExit C _ _).bind fun _ => ?_) s
    exact fun _ => grows_of_eq rfl rfl

theorem quiet_beginObservation (id : ObservationId) (place : LocalPlace) (aliased : LocalId)
    (ty : Ty) (lexicalScope : ExprId) :
    Quiets (beginObservation id place aliased ty lexicalScope) := fun _ => quiet_of_eq rfl rfl rfl

theorem quiet_endObservation : Quiets endObservation := fun _ => quiet_of_eq rfl rfl rfl

theorem keeps_observationBody {x : FlowM Unit} (body : HirBlock) (hx : Keeps x) :
    Keeps (observationBody C body x) :=
  (keeps_blockCtx C _ hx).bind fun _ => (quiet_rejectLeakedTail C body).keeps

theorem keeps_observePlace {x : FlowM Unit} (id : ObservationId) (place : LocalPlace)
    (aliased : LocalId) (lexicalScope : ExprId) (hx : Keeps x) :
    Keeps (observePlace C id place aliased lexicalScope x) := by
  refine (quiet_checkPlaceRead place).keeps.bind fun _ => ?_
  cases C.placeTy place with
  | none => exact hx
  | some ty =>
    refine .get_bind fun s => ?_
    cases C.placeStatus s place with
    | available | dropScheduled | observed =>
      exact ((quiet_beginObservation _ _ _ _ _).keeps.bind fun _ => hx.bind fun _ =>
        quiet_endObservation.keeps) s
    | partiallyMoved => exact ((quiet_diagnose _).keeps.bind fun _ => hx) s
    | moved | dropped | error => exact hx s

end

end Napitia.Resourceck

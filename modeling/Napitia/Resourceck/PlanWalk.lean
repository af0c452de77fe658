import Napitia.Resourceck.Plans

/-!
# The exits of a whole function

Every part of a function body records its exits under its own accounts, and what a block
registers names its own locals. Where nothing is owed between two records of one id, the
plans kept for the exits of a function are each of one exit, and no place is destroyed at
the ends of two blocks.
-/
namespace Napitia.Resourceck
open Nir Lower Stateful Ledger
open Hir (ExprId HirHandleArmKind)
open Hir.Body

section
variable {C : FlowContext} {e : HirExpr} {b : HirBlock} {kind : ConsumeKind}
  {own : List (List CleanupAction)} {accounts accounts' : List Account}
  {pushed : List CleanupAction} {entry : PlaceStates} {locals : List LocalId}
  {constructId : ExprId} {s t u : FlowState}

/-! ### An expression where its value goes -/

/-- The walk of an expression, with the exits of its own. -/
def ExprWalked (C : FlowContext) (e : HirExpr) (kind : ConsumeKind) (s : FlowState) : Prop :=
  ∃ own, WalkedOwn e.id own (partsOfExpr e) s (after (checkExprCtxInner C e kind) s) ∧
    Own C kind s e own

theorem exprAccount_fst (e : HirExpr) : (exprAccount e).1 = e.id := by
  cases e <;> rfl

theorem WalkedOwn.account (h : WalkedOwn e.id own accounts s t)
    (hfresh : Fresh (exprAccount e :: accounts)) (hsame : ∀ l ∈ own, ∀ l' ∈ own, l = l')
    (hfits : ∀ l ∈ own, Fits (exprAccount e).2 l) : Walked (exprAccount e :: accounts) [] s t := by
  have haccount : exprAccount e = (e.id, (exprAccount e).2) := by rw [← exprAccount_fst]
  rw [haccount] at hfresh ⊢
  exact h.close hfresh hsame hfits

theorem ExprWalked.plain (h : ExprWalked C e kind s)
    (hfresh : Fresh (exprAccount e :: partsOfExpr e)) :
    Walked (exprAccount e :: partsOfExpr e) [] s (after (checkExprCtxInner C e kind) s) := by
  obtain ⟨own, hwalked, hown⟩ := h
  exact hwalked.account hfresh hown.closed.1 hown.closed.2

theorem ExprWalked.ctx (h : ExprWalked C e kind s)
    (hfresh : Fresh (exprAccount e :: partsOfExpr e)) :
    Walked (exprAccount e :: partsOfExpr e) [] s
      (after (exprCtx C e kind (checkExprCtxInner C e kind)) s) := by
  obtain ⟨own, hwalked, hown⟩ := h
  have hctx := hwalked.exprCtx (C := C) (e := e) kind
  exact hctx.1.account hfresh (hown.closedCtx _).1 (hown.closedCtx _).2

theorem ExprWalked.returned (h : ExprWalked C e .returned s) (hclear : TailClear C s e)
    (hleaves : LeavesNever C (.expr e .returned)) (hdiverges : C.diverges e.id = false)
    (hfresh : Fresh (exprAccount e :: partsOfExpr e)) :
    Walked (exprAccount e :: partsOfExpr e) [] s
      (after (recordObservationExit e.id 0 >>= fun _ => recordExit C e.id 0)
        (after (exprCtx C e .returned (checkExprCtxInner C e .returned)) s)) := by
  obtain ⟨own, hwalked, hown⟩ := h
  have hctx := hwalked.exprCtx (C := C) (e := e) .returned
  have hexit := hctx.1.exit (C := C)
  rw [hctx.2.snapshot (C := C) 0] at hexit
  have htail := hown.tail hclear hleaves hdiverges
  have hall : ∀ l ∈ snapshotCleanup C (after (checkExprCtxInner C e .returned) s) 0 ::
      (returnedExit C e .returned (after (checkExprCtxInner C e .returned) s) ++ own),
      l = snapshotCleanup C (after (checkExprCtxInner C e .returned) s) 0 := by
    intro l hl
    rw [List.mem_cons, List.mem_append] at hl
    rcases hl with hl | hl | hl
    · exact hl
    · unfold returnedExit at hl
      split at hl
      · exact List.mem_singleton.mp hl
      · simp at hl
    · exact htail.1 l hl
  refine hexit.account hfresh (fun l hl l' hl' => (hall l hl).trans (hall l' hl').symm) ?_
  intro l hl
  rw [hall l hl]
  exact htail.2

theorem ExprWalked.arm {marker : ℕ} {pending : List CleanupAction} (h : ExprWalked C e kind s)
    (hstart : s.pendingCleanup = pushed ++ pending) (hmarker : marker = pending.length)
    (hblock : ∀ b, e = .block b →
      snapshotCleanup C (after (deferScope (checkBlockCtxInner C b kind)) s) pending.length = [])
    (hsimple : (isTry e = true ∨ kind = .returned ∧ isCompound e = false) →
      owed C (after (checkExprCtxInner C e kind) s).states pending = [])
    (hleaves : LeavesNever C (.expr e kind)) (hdiverges : C.diverges e.id = false)
    (hfresh : Fresh (exprAccount e :: partsOfExpr e)) :
    Walked (exprAccount e :: partsOfExpr e) [] s
      (after (recordExit C e.id marker)
        (after (exprCtx C e kind (checkExprCtxInner C e kind)) s)) := by
  obtain ⟨own, hwalked, hown⟩ := h
  subst hmarker
  have hctx := hwalked.exprCtx (C := C) (e := e) kind
  have harm := hown.arm hstart hwalked.pending hblock hsimple hleaves hdiverges
  have hrecord : WalkedOwn e.id _ (partsOfExpr e) s
      (after (recordExit C e.id pending.length)
        (after (exprCtx C e kind (checkExprCtxInner C e kind)) s)) := hctx.1.record rfl rfl
  have hall : ∀ l ∈ snapshotCleanup C (after (exprCtx C e kind (checkExprCtxInner C e kind)) s)
      pending.length :: (returnedExit C e kind (after (checkExprCtxInner C e kind) s) ++ own),
      l = snapshotCleanup C (after (checkExprCtxInner C e kind) s) pending.length := by
    intro l hl
    cases List.mem_cons.mp hl with
    | inl hl => rw [hl, hctx.2.snapshot]
    | inr hl => exact harm.1 l hl
  refine hrecord.account hfresh (fun l hl l' hl' => (hall l hl).trans (hall l' hl').symm) ?_
  intro l hl
  rw [hall l hl]
  exact harm.2

theorem walked_armExpr
    (h : ExprWalked C e kind (armStart C entry locals s))
    (hclear : ArmClear C constructId entry kind locals s (.expr e))
    (hleaves : LeavesNever C (.expr e kind)) (hfresh : Fresh (exprAccount e :: partsOfExpr e)) :
    Walked (exprAccount e :: partsOfExpr e) [] s
      (after (armCtx C entry locals (checkArmBody C constructId kind (.expr e))) s) := by
  obtain ⟨bound, hbound, -, -⟩ := walked_armStart (C := C) entry locals s
  rw [after_armCtx]
  simp only [checkArmBody, after_bind, after_pure, run_bind, run_pure]
  apply Walked.leaveArm
  cases hdiverges : C.diverges e.id with
  | true =>
    have hctx := h.ctx hfresh
    simpa [whenever, after_ite, after_pure] using hctx
  | false =>
    cases hleaf : isLeaf C constructId kind with
    | true =>
      have hkind : kind = .returned := by
        simp only [isLeaf, Bool.and_eq_true, decide_eq_true_eq] at hleaf
        exact hleaf.1
      subst hkind
      have htail : TailClear C (armStart C entry locals s) e := by
        cases e with
        | block b => simpa only [ArmClear, hleaf, if_true, TailClear] using hclear
        | _ => trivial
      have hexit := h.returned htail hleaves hdiverges hfresh
      have haffine : C.isAffineExpr constructId = true := by simpa [isLeaf] using hleaf
      simpa [whenever, after_ite, after_pure, haffine] using hexit
    | false =>
      have hblock : ∀ b, e = .block b → snapshotCleanup C
          (after (deferScope (checkBlockCtxInner C b kind)) (armStart C entry locals s))
          s.pendingCleanup.length = [] := by
        rintro b rfl
        have hzero := hclear hdiverges
        simpa only [hleaf, Bool.false_eq_true, if_false] using hzero
      have hsimple : (isTry e = true ∨ kind = .returned ∧ isCompound e = false) →
          owed C (after (checkExprCtxInner C e kind) (armStart C entry locals s)).states
            s.pendingCleanup = [] := by
        intro hshape
        cases e with
        | block b => simp [isTry, isCompound] at hshape
        | _ => exact hclear hleaf hdiverges hshape
      have harm := h.arm hbound rfl hblock hsimple hleaves hdiverges hfresh
      unfold isLeaf at hleaf
      simpa [whenever, after_ite, after_pure, hleaf] using harm

/-! ### Blocks -/

theorem Walked.mono (h : Walked accounts pushed s t) (hle : accounts ⊆ accounts') :
    Walked accounts' pushed s t := by
  obtain ⟨new, hnew, hkept⟩ := h.entries
  exact ⟨h.pending, new, hnew, hkept.mono hle⟩

theorem ScopeWalked.mono (h : ScopeWalked accounts locals s t) (hle : accounts ⊆ accounts') :
    ScopeWalked accounts' locals s t := by
  obtain ⟨pushed, hwalked, hdrops⟩ := h
  exact ⟨pushed, hwalked.mono hle, hdrops⟩

theorem ExprWalked.block
    (h : ScopeWalked (partsOfBlock b) (stmtLocals b.statements) (openScope s)
      (after (checkBlockCtxInner C b kind) (openScope s))) : ExprWalked C (.block b) kind s := by
  obtain ⟨pushed, hwalked, hdrops⟩ := h
  refine ⟨_, ?_, rfl, pushed, hdrops, hwalked.pending⟩
  rw [after_block, partsOfExpr]
  exact hwalked.blockCtx

theorem ScopeWalked.block
    (h : ScopeWalked (partsOfBlock b) (stmtLocals b.statements) (openScope s)
      (after (checkBlockCtxInner C b kind) (openScope s)))
    (hfresh : Fresh (blockAccount [] b :: partsOfBlock b)) :
    Walked (blockAccount [] b :: partsOfBlock b) [] s
      (after (blockCtx C b.id (checkBlockCtxInner C b kind)) s) := by
  have hplain := (ExprWalked.block h).plain
  rw [after_block, partsOfExpr] at hplain
  exact hplain hfresh

/-! ### At most one exit -/

/-- A walk that records at most one exit, under this id, and registers nothing. -/
structure Once (id : ExprId) (s t : FlowState) : Prop where
  pending : t.pendingCleanup = s.pendingCleanup
  entries : ∃ own : List (List CleanupAction), own.length ≤ 1 ∧
    t.cleanupEdges = own.map (Prod.mk id) ++ s.cleanupEdges

theorem Quiet.once {id : ExprId} (h : Quiet s t) : Once id s t :=
  ⟨h.pendingCleanup, [], by simp, h.cleanupEdges⟩

theorem Quiets.once {α : Type} {x : FlowM α} (h : Quiets x) (id : ExprId) : Within (Once id) x :=
  fun s => (h s).once

theorem Quiets.then_once {α β : Type} {id : ExprId} {x : FlowM α} {f : α → FlowM β} (h : Quiets x)
    (hf : ∀ a, Within (Once id) (f a)) : Within (Once id) (x >>= f) := by
  intro s
  have hx := h s
  obtain ⟨own, hlength, hown⟩ := (hf (x.run s).1 (x.run s).2).entries
  refine ⟨(hf _ _).pending.trans hx.pendingCleanup, own, hlength, ?_⟩
  rw [← hx.cleanupEdges]
  exact hown

theorem once_then {α β : Type} {id : ExprId} {x : FlowM α} {f : α → FlowM β}
    (h : Within (Once id) x) (hf : ∀ a, Quiets (f a)) : Within (Once id) (x >>= f) := by
  intro s
  have hquiet := hf (x.run s).1 (x.run s).2
  obtain ⟨own, hlength, hown⟩ := (h s).entries
  exact ⟨hquiet.pendingCleanup.trans (h s).pending, own, hlength, hquiet.cleanupEdges.trans hown⟩

theorem once_recordCleanup (id : ExprId) (actions : List CleanupAction) :
    Within (Once id) (recordCleanup id actions) :=
  fun _ => ⟨rfl, [actions], le_rfl, rfl⟩

theorem once_recordExit (id : ExprId) (marker : ℕ) : Within (Once id) (recordExit C id marker) :=
  .get_bind fun s => once_recordCleanup id _ s

theorem once_dropAvailable (place : LocalPlace) (id : ExprId) :
    Within (Once id) (dropAvailable C place id) := by
  refine .get_bind fun s => ?_
  exact Within.ite (Quiets.once ((quiet_refuse _ _).bind fun _ => .pure _) id)
    (once_then (once_recordCleanup _ _) fun _ => .pure _) s

theorem once_checkLocalDrop (binding : LocalId) (id : ExprId) :
    Within (Once id) (checkLocalDrop C binding id) := by
  refine .get_bind fun s => Within.ite ((quiet_diagnose _).once id) ?_ s
  refine (quiet_rejectOwnership _).then_once fun _ => .ite (Quiets.once (.pure _) id) ?_
  refine .get_bind fun s => ?_
  cases s.states.lookup (ofRoot binding) with
  | none => exact (Quiets.once (.pure _) id) s
  | some state =>
    cases state with
    | available =>
      exact once_then (once_dropAvailable _ id) (fun _ => .ite (quiet_setPlace _ _) (.pure _)) s
    | error => exact (Quiets.once (.pure _) id) s
    | moved | dropped | dropScheduled => exact ((quiet_refuse _ _).once id) s

theorem once_checkFieldDrop (place : LocalPlace) (id : ExprId) :
    Within (Once id) (checkFieldDrop C place id) := by
  refine (quiet_rejectOwnership place).then_once fun _ => .ite (Quiets.once (.pure _) id) ?_
  refine .get_bind fun s => ?_
  cases placeState s.states place with
  | available =>
    exact once_then (once_dropAvailable place id)
      (fun _ => .ite ((quiet_recordConsume _ _).bind fun _ => quiet_setPlace _ _) (.pure _)) s
  | error => exact (Quiets.once (.pure _) id) s
  | moved | dropped | dropScheduled => exact ((quiet_refuse _ place).once id) s

theorem once_leaveLoop (id : ExprId) (onFrame : PlaceStates → LoopFrame → LoopFrame) :
    Within (Once id) (leaveLoop C id onFrame) := by
  refine .get_bind fun s => ?_
  cases s.loopStack with
  | nil => exact (Quiets.once (.pure _) id) s
  | cons frame rest =>
    refine (quiet_recordObservationExit _ _).then_once (fun _ => ?_) s
    exact once_then (once_recordExit id _) fun _ _ => quiet_of_eq rfl rfl rfl

theorem once_exit (id : ExprId) :
    Within (Once id) (recordObservationExit id 0 >>= fun _ => recordExit C id 0) :=
  (quiet_recordObservationExit _ _).then_once fun _ => once_recordExit id 0

theorem Walked.once {id : ExprId} (h : Walked accounts [] s t) (honce : Once id t u) :
    ∃ own : List (List CleanupAction), own.length ≤ 1 ∧ WalkedOwn id own accounts s u := by
  obtain ⟨new, hnew, hkept⟩ := h.entries
  obtain ⟨own, hlength, hown⟩ := honce.entries
  exact ⟨own, hlength, honce.pending.trans h.pending, new, by rw [hown, hnew], hkept⟩

theorem Once.walked {id : ExprId} (h : Once id s t) : Walked [(id, none)] [] s t := by
  obtain ⟨own, hlength, hown⟩ := Walked.once ⟨rfl, [], rfl, .nil⟩ h
  refine hown.close (by simp [Fresh]) ?_ fun l _ => fits_none l
  intro l hl l' hl'
  cases own with
  | nil => simp at hl
  | cons a rest =>
    have hrest : rest = [] := by simpa using hlength
    rw [hrest] at hl hl'
    rw [List.mem_singleton.mp hl, List.mem_singleton.mp hl']

/-! ### What a statement registers -/

theorem scopeWalked_afterDefer (expr : HirExpr) (s : FlowState) :
    ScopeWalked [] [] s (after (afterDefer C expr) s) := by
  rw [afterDefer, after_bind, run_get, after_get, after_ite]
  split
  · exact (quiet_diagnose _ s).walked.scope []
  · have hregister := quiet_registerDefer C expr s
    have hpush : Walked [] [.defer expr.id] (after (registerDefer C expr) s)
        (after (pushCleanup (.defer expr.id)) (after (registerDefer C expr) s)) :=
      ⟨rfl, [], rfl, .nil⟩
    have hprotect := Within.forM (l := observedPlaces C expr) quiet_protectPlace
      (after (pushCleanup (.defer expr.id)) (after (registerDefer C expr) s))
    exact ⟨_, (hregister.then_walked hpush).quiet hprotect, by simp [DropsOnly]⟩

theorem exprAccount_of_dropped {binding : LocalId} (h : droppedLocal e = some binding) :
    exprAccount e = (e.id, none) := by
  cases e with
  | localVar => rfl
  | _ => cases h

theorem exprAccount_of_droppedField {place : LocalPlace} (h : droppedField C e = some place) :
    exprAccount e = (e.id, none) := by
  cases e with
  | field => rfl
  | _ => cases h

theorem quiet_observeStart (id : ObservationId) (place : LocalPlace) (aliased : LocalId)
    (lexicalScope : ExprId) (s : FlowState) :
    Quiet s (observeStart C id place aliased lexicalScope s) := by
  have hread : Quiet s (after (checkPlaceRead place) s) := quiet_checkPlaceRead place s
  unfold observeStart
  cases C.placeTy place with
  | none => exact hread
  | some ty =>
    simp only
    cases C.placeStatus (after (checkPlaceRead place) s) place with
    | available | dropScheduled | observed =>
      exact IsTrans.trans _ _ _ hread (quiet_beginObservation _ _ _ _ _ _)
    | partiallyMoved => exact IsTrans.trans _ _ _ hread (quiet_diagnose _ _)
    | moved | dropped | error => exact hread

theorem walked_observePlace {id : ObservationId} {place : LocalPlace} {aliased : LocalId}
    {lexicalScope : ExprId} {x : FlowM Unit}
    (h : Walked accounts [] (observeStart C id place aliased lexicalScope s)
      (after x (observeStart C id place aliased lexicalScope s))) :
    Walked accounts [] s (after (observePlace C id place aliased lexicalScope x) s) := by
  have hall := (quiet_observeStart id place aliased lexicalScope s).then_walked h
  unfold observeStart at hall
  rw [observePlace, after_bind]
  cases hty : C.placeTy place with
  | none => simpa only [hty] using hall
  | some ty =>
    rw [hty] at hall
    simp only [after_bind, run_get, after_get] at hall ⊢
    cases hstatus : C.placeStatus (after (checkPlaceRead place) s) place with
    | available | dropScheduled | observed =>
      rw [hstatus] at hall
      exact hall.quiet (quiet_endObservation _)
    | partiallyMoved | moved | dropped | error =>
      rw [hstatus] at hall
      exact hall

theorem stmtLocals_cons (st : HirStmt) (rest : List HirStmt) :
    stmtLocals (st :: rest) = stmtLocals [st] ++ stmtLocals rest := by
  cases st <;> rfl

/-! ### The walk -/

theorem owes_exit (id : ExprId) (s : FlowState) :
    Owes s (after (recordObservationExit id 0 >>= fun _ => recordExit C id 0) s) := by
  have howes := owes_recordObservationExit id 0 s
  exact ⟨howes.states, howes.pendingCleanup⟩

theorem ExprWalked.parts (h : Walked (partsOfExpr e) [] s (after (checkExprCtxInner C e kind) s))
    (hown : Own C kind s e []) : ExprWalked C e kind s :=
  ⟨[], h.toOwn e.id, hown⟩

theorem fresh_parts {a : Account} (h : Fresh (a :: accounts)) : Fresh accounts :=
  (fresh_cons.mp h).2

end

section
variable {C : FlowContext}

mutual

theorem walk_expr : ∀ e kind s, Clears C (.expr e kind, s) →
    Fresh (exprAccount e :: partsOfExpr e) → ExprWalked C e kind s
  | .int .., _, s, _, _ | .float .., _, s, _, _ | .str .., _, s, _, _ | .char .., _, s, _, _
  | .bool .., _, s, _, _ | .function .., _, s, _, _ | .caseRef .., _, s, _, _
  | .protocolMethodRef .., _, s, _, _ | .error .., _, s, _, _ => by
    refine ExprWalked.parts ?_ rfl
    rw [checkExprCtxInner, partsOfExpr]
    exact Quiet.walked (Std.Refl.refl s)
  | .localVar id binding, kind, s, _, _ => by
    refine ExprWalked.parts ?_ rfl
    rw [checkExprCtxInner, partsOfExpr]
    exact Quiet.walked (quiet_checkLocalUse C binding kind s)
  | .unary _ _ operand, _, s, hclears, hfresh => by
    refine ExprWalked.parts ?_ rfl
    have hparts := fresh_parts hfresh
    rw [partsOfExpr] at hparts ⊢
    rw [checkExprCtxInner]
    exact (walk_expr operand .read s (hclears.below .unary) hparts).plain hparts
  | .cast _ operand, _, s, hclears, hfresh => by
    refine ExprWalked.parts ?_ rfl
    have hparts := fresh_parts hfresh
    rw [partsOfExpr] at hparts ⊢
    rw [checkExprCtxInner]
    exact (walk_expr operand .read s (hclears.below .cast) hparts).plain hparts
  | .binary _ _ left right, _, s, hclears, hfresh => by
    refine ExprWalked.parts ?_ rfl
    have hparts := fresh_parts hfresh
    rw [partsOfExpr] at hparts ⊢
    obtain ⟨hfirst, hsecond, hapart⟩ := fresh_append.mp hparts
    rw [checkExprCtxInner, after_bind]
    exact ((walk_expr left .read s (hclears.below .left) hfirst).plain hfirst).trans
      ((walk_expr right .read _ (hclears.below .right) hsecond).plain hsecond) hapart
  | .assign _ target _ value, _, s, hclears, hfresh => by
    refine ExprWalked.parts ?_ rfl
    have hparts := fresh_parts hfresh
    rw [partsOfExpr] at hparts ⊢
    obtain ⟨hvalue, htarget, hapart⟩ := fresh_append.mp hparts
    have hwalked := (walk_expr value .other _ (hclears.below .assignValue) hvalue).ctx hvalue
    rw [checkExprCtxInner, after_bind, after_bind]
    have hnoted : Quiet s (noted C value.id .transfer s) :=
      Within.ite (quiet_recordConsume _ _) (.pure _) s
    cases howned : ownedTarget C target with
    | some place =>
      exact ((hnoted.then_walked hwalked).quiet (quiet_checkReassignment place _)).mono
        (List.subset_append_left _ _)
    | none =>
      exact (hnoted.then_walked hwalked).trans
        ((walk_expr target .read _ (hclears.below (.assignTarget howned)) htarget).plain htarget) hapart
  | .call _ callee args, _, s, hclears, hfresh => by
    refine ExprWalked.parts ?_ rfl
    have hparts := fresh_parts hfresh
    rw [partsOfExpr] at hparts ⊢
    obtain ⟨hcallee, hargs, hapart⟩ := fresh_append.mp hparts
    have hwalked := (walk_expr callee .read s (hclears.below .callee) hcallee).plain hcallee
    rw [checkExprCtxInner, after_bind]
    cases hmalformed : malformedCallee C callee args with
    | true =>
      exact (hwalked.quiet (quiet_diagnose _ _)).mono (List.subset_append_left _ _)
    | false =>
      have hrest := walk_args callee 0 args _ (hclears.below (.callArgs hmalformed)) hargs
      exact hwalked.trans
        ((quiet_rejectMixedObserveTakeAliases C callee args _).then_walked hrest) hapart
  | .field id base, kind, s, hclears, hfresh => by
    refine ExprWalked.parts ?_ rfl
    have hparts := fresh_parts hfresh
    rw [partsOfExpr] at hparts ⊢
    rw [checkExprCtxInner]
    cases hplace : C.resolvePlace (.field id base) with
    | some place =>
      have hquiet : Quiets (if kind ≠ .read && C.isAffineExpr id then do
          applyPlaceMove place
          recordConsume id .transfer
        else checkPlaceRead place) :=
        .ite ((quiet_applyPlaceMove _).bind fun _ => quiet_recordConsume _ _)
          (quiet_checkPlaceRead _)
      exact (Quiet.walked (hquiet s)).mono (List.nil_subset _)
    | none =>
      exact ((walk_expr base .read s (hclears.below (.fieldBase hplace)) hparts).plain hparts).quiet
        (quiet_rejectLeakedTemporary C base _)
  | .tryExpr id operand, kind, s, hclears, hfresh => by
    have hparts := fresh_parts hfresh
    rw [partsOfExpr] at hparts
    have hwalked := (walk_expr operand .read s (hclears.below .tryExpr) hparts).plain hparts
    have hexit := (hwalked.toOwn id).exit (C := C)
    refine ⟨_, ?_, rfl⟩
    rw [checkExprCtxInner, partsOfExpr, after_bind, (owes_exit id _).snapshot]
    exact hexit
  | .ifExpr id condition thenBranch elseBranch, kind, s, hclears, hfresh => by
    refine ExprWalked.parts ?_ rfl
    have hparts := fresh_parts hfresh
    rw [partsOfExpr] at hparts ⊢
    obtain ⟨hcondition, hbranches, hapart⟩ := fresh_append.mp hparts
    obtain ⟨hthen, helse, hapart'⟩ := fresh_append.mp hbranches
    have hwalked := (walk_expr condition .read s (hclears.below .condition) hcondition).plain hcondition
    have hthenWalked := (walk_block thenBranch _ _ (hclears.below (.thenBranch rfl))
      (fresh_parts hthen)).block hthen
    have helseWalked := walk_else _ _ elseBranch _ (hclears.below (.elseBranch rfl rfl rfl)) helse
    have hfinish := (hthenWalked.quiet (quiet_swapStates _ _)).trans helseWalked hapart'
    rw [checkExprCtxInner]
    exact (hwalked.trans ((quiet_checkCompoundOrigin C id kind _).then_walked hfinish) hapart).quiet
      (quiet_finishBranches _ _ _ _)
  | .matchExpr id scrutinee arms, kind, s, hclears, hfresh => by
    refine ExprWalked.parts ?_ rfl
    have hparts := fresh_parts hfresh
    rw [partsOfExpr] at hparts ⊢
    obtain ⟨hscrutinee, harms, hapart⟩ := fresh_append.mp hparts
    have hwalked := (walk_expr scrutinee _ s (hclears.below .scrutinee) hscrutinee).ctx hscrutinee
    have hrest := walk_matchArms id _ _ arms _ (hclears.below (.matchArms rfl)) harms
    rw [checkExprCtxInner]
    exact (hwalked.trans ((quiet_checkCompoundOrigin C id kind _).then_walked hrest) hapart).quiet
      (quiet_finishBranches _ _ _ _)
  | .block b, kind, s, hclears, hfresh => by
    have hparts := fresh_parts hfresh
    rw [partsOfExpr] at hparts
    exact ExprWalked.block (walk_block b kind _ (hclears.below .block) hparts)
  | .returnExpr id none, _, s, _, _ => by
    obtain ⟨own, hlength, hwalked⟩ :=
      (Quiet.walked (Std.Refl.refl s)).once (once_exit (C := C) id s)
    refine ⟨own, ?_, hlength⟩
    rw [checkExprCtxInner, partsOfExpr]
    exact hwalked
  | .returnExpr id (some value), _, s, hclears, hfresh => by
    have hparts := fresh_parts hfresh
    rw [partsOfExpr] at hparts
    have hvalue := (walk_expr value .returned s (hclears.below .returned) hparts).ctx hparts
    obtain ⟨own, hlength, hwalked⟩ := hvalue.once (once_exit (C := C) id _)
    refine ⟨own, ?_, hlength⟩
    rw [checkExprCtxInner, partsOfExpr]
    exact hwalked
  | .breakExpr id none, _, s, _, _ => by
    obtain ⟨own, hlength, hwalked⟩ :=
      (Quiet.walked (Std.Refl.refl s)).once (once_leaveLoop (C := C) id _ s)
    refine ⟨own, ?_, hlength⟩
    rw [checkExprCtxInner, partsOfExpr]
    exact hwalked
  | .breakExpr id (some value), _, s, hclears, hfresh => by
    have hparts := fresh_parts hfresh
    rw [partsOfExpr] at hparts
    have hvalue := (walk_expr value .other s (hclears.below .broken) hparts).ctx hparts
    obtain ⟨own, hlength, hwalked⟩ := hvalue.once (once_leaveLoop (C := C) id _ _)
    refine ⟨own, ?_, hlength⟩
    rw [checkExprCtxInner, partsOfExpr, after_bind]
    exact hwalked
  | .continueExpr id, _, s, _, _ => by
    obtain ⟨own, hlength, hwalked⟩ :=
      (Quiet.walked (Std.Refl.refl s)).once (once_leaveLoop (C := C) id _ s)
    refine ⟨own, ?_, hlength⟩
    rw [checkExprCtxInner, partsOfExpr]
    exact hwalked
  | .recordLiteral _ _ fields, _, s, hclears, hfresh => by
    refine ExprWalked.parts ?_ rfl
    have hparts := fresh_parts hfresh
    rw [partsOfExpr] at hparts ⊢
    rw [checkExprCtxInner]
    exact walk_fields fields s (hclears.below .record) hparts
  | .raise id operand, _, s, hclears, hfresh => by
    have hparts := fresh_parts hfresh
    rw [partsOfExpr] at hparts
    have hvalue := (walk_expr operand .other s (hclears.below .raised) hparts).ctx hparts
    obtain ⟨own, hlength, hwalked⟩ := hvalue.once (once_exit (C := C) id _)
    refine ⟨own, ?_, hlength⟩
    rw [checkExprCtxInner, partsOfExpr]
    exact hwalked
  | .handle id operand arms, kind, s, hclears, hfresh => by
    refine ExprWalked.parts ?_ rfl
    have hparts := fresh_parts hfresh
    rw [partsOfExpr] at hparts ⊢
    obtain ⟨hoperand, harms, hapart⟩ := fresh_append.mp hparts
    have hwalked := (walk_expr operand .read s (hclears.below .handled) hoperand).plain hoperand
    have hrest := walk_handleArms id _ _ arms _ (hclears.below (.handleArms rfl)) harms
    rw [checkExprCtxInner]
    exact (hwalked.trans ((quiet_checkCompoundOrigin C id kind _).then_walked hrest) hapart).quiet
      (quiet_finishBranches _ _ _ _)

theorem walk_args : ∀ callee index args s, Clears C (.args callee index args, s) →
    Fresh (partsOfArgs args) → Walked (partsOfArgs args) [] s (after (checkArgs C callee index args) s)
  | _, _, [], s, _, _ => by
    rw [checkArgs, partsOfArgs]
    exact Quiet.walked (Std.Refl.refl s)
  | callee, index, arg :: rest, s, hclears, hfresh => by
    rw [partsOfArgs] at hfresh ⊢
    obtain ⟨harg, hrest, hapart⟩ := fresh_append.mp hfresh
    have hnoted : Quiet s (noted C arg.id (argInfo C callee index) s) :=
      Within.ite (quiet_recordConsume _ _) (.pure _) s
    have hwalked := (walk_expr arg _ _ (hclears.below .arg) harg).ctx harg
    have hleak : Quiets (whenever (!takes C callee index) (rejectLeakedTemporary C arg)) :=
      .ite (quiet_rejectLeakedTemporary C arg) (.pure _)
    have hnext := walk_args callee (index + 1) rest _ (hclears.below .nextArg) hrest
    rw [checkArgs]
    exact ((hnoted.then_walked hwalked).quiet (hleak _)).trans hnext hapart

theorem walk_fields : ∀ fields s, Clears C (.fields fields, s) → Fresh (partsOfFields fields) →
    Walked (partsOfFields fields) [] s (after (checkFields C fields) s)
  | [], s, _, _ => by
    rw [checkFields, partsOfFields]
    exact Quiet.walked (Std.Refl.refl s)
  | .mk _ value :: rest, s, hclears, hfresh => by
    rw [partsOfFields] at hfresh ⊢
    obtain ⟨hvalue, hrest, hapart⟩ := fresh_append.mp hfresh
    rw [checkFields, after_bind]
    exact ((walk_expr value .other s (hclears.below .field) hvalue).ctx hvalue).trans
      (walk_fields rest _ (hclears.below .nextField) hrest) hapart

theorem walk_else : ∀ entry kind branch s, Clears C (.elseBranch entry kind branch, s) →
    Fresh (partsOfElse branch) →
    Walked (partsOfElse branch) [] s (after (checkElse C entry kind branch) s)
  | _, _, none, s, _, _ => by
    rw [checkElse, partsOfElse]
    exact Quiet.walked (Std.Refl.refl s)
  | entry, kind, some (.block b), s, hclears, hfresh => by
    rw [partsOfElse] at hfresh ⊢
    rw [checkElse, after_bind]
    exact ((walk_block b kind _ (hclears.below .elseBlock) (fresh_parts hfresh)).block hfresh).quiet
      (quiet_swapStates entry _)
  | _, kind, some (.ifExpr e), s, hclears, hfresh => by
    rw [partsOfElse] at hfresh ⊢
    rw [checkElse, after_bind]
    exact (walk_expr e kind s (hclears.below .elseIf) hfresh).ctx hfresh

theorem walk_arm : ∀ constructId entry locals kind body s,
    Clears C (.armBody constructId kind body, armStart C entry locals s) →
    ArmClear C constructId entry kind locals s body → Fresh (armAccounts locals body) →
    Walked (armAccounts locals body) [] s
      (after (armCtx C entry locals (checkArmBody C constructId kind body)) s)
  | constructId, entry, locals, kind, .expr e, s, hclears, hclear, hfresh => by
    rw [armAccounts] at hfresh ⊢
    have hbelow := hclears.below .armExpr
    exact walked_armExpr (walk_expr e kind _ hbelow hfresh) hclear hbelow.here.2 hfresh
  | constructId, entry, locals, kind, .block b, s, hclears, _, hfresh => by
    rw [armAccounts] at hfresh ⊢
    obtain ⟨pushed, hwalked, hdrops⟩ :=
      walk_block b kind _ (hclears.below .armBlock) (fresh_parts hfresh)
    exact walked_armBlock hwalked hdrops hfresh

theorem walk_matchArms : ∀ constructId entry kind arms s,
    Clears C (.matchArms constructId entry kind arms, s) → Fresh (partsOfMatchArms arms) →
    Walked (partsOfMatchArms arms) [] s (after (checkMatchArms C constructId entry kind arms) s)
  | _, _, _, [], s, _, _ => by
    rw [checkMatchArms, partsOfMatchArms]
    exact Quiet.walked (Std.Refl.refl s)
  | constructId, entry, kind, .mk pattern body :: rest, s, hclears, hfresh => by
    rw [partsOfMatchArms] at hfresh ⊢
    obtain ⟨harm, hrest, hapart⟩ := fresh_append.mp hfresh
    rw [checkMatchArms, after_bind]
    exact (walk_arm constructId entry _ kind body s (hclears.below .matchArm) hclears.here.1
      harm).trans (walk_matchArms constructId entry kind rest _ (hclears.below .nextMatchArm) hrest)
      hapart

theorem walk_handleArms : ∀ constructId entry kind arms s,
    Clears C (.handleArms constructId entry kind arms, s) → Fresh (partsOfHandleArms arms) →
    Walked (partsOfHandleArms arms) [] s (after (checkHandleArms C constructId entry kind arms) s)
  | _, _, _, [], s, _, _ => by
    rw [checkHandleArms, partsOfHandleArms]
    exact Quiet.walked (Std.Refl.refl s)
  | constructId, entry, kind, .mk armKind body :: rest, s, hclears, hfresh => by
    rw [partsOfHandleArms] at hfresh ⊢
    obtain ⟨harm, hrest, hapart⟩ := fresh_append.mp hfresh
    rw [checkHandleArms, after_bind]
    exact (walk_arm constructId entry _ kind body s (hclears.below .handleArm) hclears.here.1
      harm).trans (walk_handleArms constructId entry kind rest _ (hclears.below .nextHandleArm) hrest)
      hapart

theorem walk_block : ∀ b kind s, Clears C (.block b kind, s) → Fresh (partsOfBlock b) →
    ScopeWalked (partsOfBlock b) (stmtLocals b.statements) s (after (checkBlockCtxInner C b kind) s)
  | .mk _ statements none, kind, s, hclears, hfresh => by
    rw [partsOfBlock] at hfresh ⊢
    rw [checkBlockCtxInner, after_bind]
    simp only [after_pure, ite_self]
    exact walk_stmts statements s (hclears.below .blockStmts) hfresh
  | .mk _ statements (some tail), kind, s, hclears, hfresh => by
    rw [partsOfBlock] at hfresh ⊢
    obtain ⟨hstatements, htail, hapart⟩ := fresh_append.mp hfresh
    have hwalked := walk_stmts statements s (hclears.below .blockStmts) hstatements
    rw [checkBlockCtxInner, after_bind]
    cases hended : ((checkStmts C statements).run s).1 with
    | false => exact hwalked.mono (List.subset_append_left _ _)
    | true =>
      have hbelow := hclears.below (.blockTail hended)
      have htailWalked := walk_expr tail kind _ hbelow htail
      have hend : Walked (exprAccount tail :: partsOfExpr tail) [] (after (checkStmts C statements) s)
          (after (whenever (kind = .returned && !C.diverges tail.id) do
              recordObservationExit tail.id 0
              recordExit C tail.id 0)
            (after (exprCtx C tail kind (checkExprCtxInner C tail kind))
              (after (checkStmts C statements) s))) := by
        rw [whenever, after_ite]
        split
        · rename_i hcond
          simp only [Bool.and_eq_true, decide_eq_true_eq, Bool.not_eq_true'] at hcond
          obtain ⟨hkind, hdiverges⟩ := hcond
          subst hkind
          exact htailWalked.returned (hclears.here.1 hended) hbelow.here.2 hdiverges htail
        · exact htailWalked.ctx htail
      have hall := hwalked.trans (hend.scope []) hapart
      rw [List.append_nil] at hall
      exact hall

theorem walk_stmts : ∀ statements s, Clears C (.stmts statements, s) →
    Fresh (partsOfStmts statements) →
    ScopeWalked (partsOfStmts statements) (stmtLocals statements) s (after (checkStmts C statements) s)
  | [], s, _, _ => by
    rw [checkStmts, partsOfStmts]
    exact (Quiet.walked (Std.Refl.refl s)).scope []
  | st :: rest, s, hclears, hfresh => by
    rw [partsOfStmts] at hfresh ⊢
    obtain ⟨hst, hrest, hapart⟩ := fresh_append.mp hfresh
    have hwalked := walk_stmt st s (hclears.below .firstStmt) hst
    rw [checkStmts, after_bind, stmtLocals_cons]
    cases hdiverges : ((checkStmt C st).run s).1 with
    | true =>
      obtain ⟨pushed, hpushed, hdrops⟩ := hwalked
      exact ⟨pushed, hpushed.mono (List.subset_append_left _ _),
        hdrops.mono (List.subset_append_left _ _)⟩
    | false =>
      exact hwalked.trans (walk_stmts rest _ (hclears.below (.nextStmt hdiverges)) hrest) hapart

theorem walk_stmt : ∀ st s, Clears C (.stmt st, s) → Fresh (partsOfStmt st) →
    ScopeWalked (partsOfStmt st) (stmtLocals [st]) s (after (checkStmt C st) s)
  | .binding binding value, s, hclears, hfresh => by
    rw [partsOfStmt] at hfresh ⊢
    have hnoted : Quiet s (noted C value.id .transfer s) :=
      Within.ite (quiet_recordConsume _ _) (.pure _) s
    have hwalked := (walk_expr value .other _ (hclears.below .bound) hfresh).ctx hfresh
    have hall := ((hnoted.then_walked hwalked).scope []).trans
      (scopeWalked_bindLocal (C := C) binding _) (by simp [Apart])
    rw [List.append_nil] at hall
    rw [checkStmt]
    exact hall
  | .expr e, s, hclears, hfresh => by
    rw [partsOfStmt] at hfresh ⊢
    have hwalked := (walk_expr e .read s (hclears.below .stmtExpr) hfresh).plain hfresh
    rw [checkStmt]
    exact (hwalked.quiet (quiet_rejectLeakedTemporary C e _)).scope _
  | .defer e, s, hclears, hfresh => by
    rw [partsOfStmt] at hfresh ⊢
    have hwalked := (walk_expr e .read s (hclears.below .deferred) hfresh).plain hfresh
    have hall := (hwalked.scope []).trans (scopeWalked_afterDefer (C := C) e _) (by simp [Apart])
    rw [List.append_nil] at hall
    rw [checkStmt]
    exact hall
  | .drop e, s, hclears, hfresh => by
    rw [partsOfStmt] at hfresh ⊢
    rw [checkStmt]
    cases hlocal : droppedLocal e with
    | some binding =>
      have honce := Once.walked (once_checkLocalDrop (C := C) binding e.id s)
      rw [exprAccount_of_dropped hlocal]
      exact (honce.mono (List.cons_subset_cons _ (List.nil_subset _))).scope _
    | none =>
      cases hfield : droppedField C e with
      | some place =>
        have honce := Once.walked (once_checkFieldDrop (C := C) place e.id s)
        rw [exprAccount_of_droppedField hfield]
        exact (honce.mono (List.cons_subset_cons _ (List.nil_subset _))).scope _
      | none =>
        have hwalked := walk_expr e .other s (hclears.below (.dropped hlocal hfield)) hfresh
        exact (hwalked.ctx hfresh).scope _
  | .whileLoop condition body, s, hclears, hfresh => by
    rw [partsOfStmt] at hfresh ⊢
    obtain ⟨hcondition, hbody, hapart⟩ := fresh_append.mp hfresh
    have hwalked :=
      (walk_expr condition .read _ (hclears.below .whileCondition) hcondition).plain hcondition
    have hblock := (walk_block body .read _ (hclears.below .whileBody) (fresh_parts hbody)).block hbody
    have hall := ((quiet_pushLoop s).then_walked hwalked).trans hblock hapart
    rw [checkStmt]
    exact (hall.quiet (quiet_popLoop C _ _ _ _ _)).scope _
  | .loop body, s, hclears, hfresh => by
    rw [partsOfStmt] at hfresh ⊢
    have hblock := (walk_block body .read _ (hclears.below .loopBody) (fresh_parts hfresh)).block hfresh
    rw [checkStmt]
    exact (((quiet_pushLoop s).then_walked hblock).quiet (quiet_popLoop C _ _ _ _ _)).scope _
  | .observe id source aliased body, s, hclears, hfresh => by
    rw [partsOfStmt] at hfresh ⊢
    obtain ⟨hsource, hbody, hapart⟩ := fresh_append.mp hfresh
    rw [checkStmt]
    cases hplace : observedSource C source with
    | some place =>
      have hblock := (walk_block body .read _ (hclears.below (.observeBody hplace))
        (fresh_parts hbody)).block hbody
      have hend : Walked _ [] _ (after (observationBody C body (checkBlockCtxInner C body .read)) _) :=
        hblock.quiet (quiet_rejectLeakedTail C body _)
      have hall := walked_observePlace hend
      rw [show (if C.isAffineExpr source.id then C.resolvePlace source else none) = some place
        from hplace]
      exact (hall.mono (List.subset_append_right _ _)).scope _
    | none =>
      have hwalked := (walk_expr source .read s (hclears.below (.observeSource hplace)) hsource).plain
        hsource
      have hblock := (walk_block body .read _ (hclears.below (.observeRead hplace))
        (fresh_parts hbody)).block hbody
      have hall := hwalked.trans (hblock.quiet (quiet_rejectLeakedTail C body _)) hapart
      rw [show (if C.isAffineExpr source.id then C.resolvePlace source else none) = none
        from hplace]
      exact hall.scope _

end

end

end Napitia.Resourceck

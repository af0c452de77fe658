import Napitia.Lower.Intact

/-!
# Constructs keep a builder intact

Each construct keeps a builder intact where its parts do. A construct that opens blocks
knows of each that it has been opened, which is all that a jump to it asks for.
-/
namespace Napitia.Lower
open Nir StateT
open Hir (ExprId HirHandleArmKind)
open Hir.Body
open Resourceck (LocalPlace CleanupAction)

section
variable {B : BodyLowering} {α β : Type} {x y : Build LoweredExpr} {xs : List (Build LoweredExpr)}
  {next : ValueId → Build LoweredExpr} {e : HirExpr} {n : ℕ} {Q : ℕ → β → Prop}

theorem Builds.before {z : Build α} {f : α → Build β} (hz : Builds z n fun _ _ => True)
    (hf : ∀ v, Builds (f v) n Q) : Builds (z >>= f) n Q :=
  hz.bind fun _ v hk _ => (hf v).mono hk fun _ _ h => h

/-! ### Values and cleanups -/

theorem sound_orFail (entry : Option α) (message : String) : Sound (orFail entry message) :=
  (reads_orFail entry message).sound

theorem sound_currentTerminated : Sound currentTerminated :=
  sound_get.bind fun _ => sound_pure _

theorem sound_unitValue : Sound unitValue := sound_pushValue _ _

theorem sound_valueOf {z : Build ValueId} (hz : Sound z) : Sound (valueOf z) :=
  hz.bind fun _ => sound_pure _

theorem sound_unit : Sound (valueOf unitValue) := sound_valueOf sound_unitValue

theorem sound_loadCurrent (binding : LocalId) (current : LocalBinding) :
    Sound (loadCurrent B binding current) := by
  cases current with
  | direct value => exact sound_pure _
  | slot slot => exact (sound_orFail _ _).bind fun ty => sound_pushValue ty _

theorem sound_signedLiteral (ty : Ty) (magnitude : ℕ) (negated : Bool) :
    Sound (signedLiteral B ty magnitude negated) := by
  unfold signedLiteral
  split
  · exact sound_pushValue _ _
  · exact sound_throw _

theorem sound_moveIfTransferred (value : ValueId) (ty : Ty) (transfers : Bool) :
    Sound (moveIfTransferred B value ty transfers) :=
  .ite (fun _ => sound_pushValue _ _) fun _ => sound_pure _

theorem sound_bindLocal (binding : LocalId) (bound : LocalBinding) :
    Sound (bindLocal binding bound) :=
  sound_modify (fun _ => rfl) (fun _ => rfl) (fun _ => rfl) fun _ => rfl

theorem sound_lookupConsumeMode (id : ExprId) (ty : Ty) (context : String) :
    Sound (lookupConsumeMode B id ty context) :=
  (reads_lookupConsumeMode id ty context).sound

theorem sound_resolveNirPlace (place : LocalPlace) : Sound (resolveNirPlace B place) := by
  apply sound_get.bind
  intro fb
  apply (sound_orFail _ _).bind
  intro binding
  apply (sound_loadCurrent _ _).bind
  intro root
  apply (sound_orFail _ _).bind
  intro rootTy
  apply (reads_foldlM reads_projectTy _ _).sound.bind
  intro ty
  exact sound_pure _

theorem sound_takePlace (place : LocalPlace) : Sound (takePlace B place) := by
  apply Sound.ite
  · intro _
    apply sound_get.bind
    intro fb
    apply (sound_orFail _ _).bind
    intro binding
    exact sound_loadCurrent _ _
  · intro _
    exact (sound_resolveNirPlace place).bind fun _ => sound_pushValue _ _

theorem sound_emitDeferred (id : ExprId) (last : Option ℕ) : Sound (emitDeferred B id last) := by
  apply sound_get.bind
  intro fb
  apply (sound_orFail _ _).bind
  intro pending
  apply (sound_orFail _ _).bind
  intro plan
  apply Builds.guard
  exact (sound_pushValue _ _).bind fun _ => sound_pure _

theorem sound_replayCleanup (last : Option ℕ) (actions : List CleanupAction) :
    Sound (replayCleanup B last actions) := by
  induction actions generalizing last with
  | nil => exact sound_pure _
  | cons action rest ih =>
    cases action with
    | drop place =>
      have hdrop : Sound (emitDrop B place) :=
        (sound_takePlace place).bind fun _ => sound_pushInstruction rfl
      exact hdrop.bind fun _ => ih last
    | defer id => exact (sound_emitDeferred id last).bind fun order => ih (some order)

theorem sound_emitCheckedCleanup (exit : ExprId) : Sound (emitCheckedCleanup B exit) := by
  have hends : Sound (emitObservationEnds B exit) := by
    unfold emitObservationEnds
    split
    · exact sound_pure _
    · apply sound_forM
      intro ended _
      apply Builds.guard
      apply Builds.guard
      exact sound_pushInstruction rfl
  apply hends.bind
  intro _
  exact (sound_orFail _ _).bind fun actions => sound_replayCleanup none actions

theorem sound_cleanupIfOpen (id : ExprId) : Sound (cleanupIfOpen B id) :=
  sound_currentTerminated.bind fun _ =>
    .ite (fun _ => sound_emitCheckedCleanup id) fun _ => sound_pure _

/-! ### Operands -/

theorem builds_onValue (hx : Sound x) (h : ∀ v, Builds (next v) n fun _ _ => True) :
    Builds (onValue x next) n fun _ _ => True := by
  apply hx.before
  intro v
  cases v with
  | value value => exact h value
  | diverged => exact (sound_pure _).builds

theorem sound_onValue (hx : Sound x) (h : ∀ v, Sound (next v)) : Sound (onValue x next) :=
  builds_onValue hx h

theorem sound_collectValues (h : ∀ x ∈ xs, Sound x) : Sound (collectValues xs) := by
  induction xs with
  | nil => exact sound_pure _
  | cons x xs ih =>
    apply (h x List.mem_cons_self).bind
    intro v
    cases v with
    | diverged => exact sound_pure _
    | value value =>
      exact (ih fun y hy => h y (List.mem_cons_of_mem _ hy)).bind fun _ => sound_pure _

theorem sound_onValues {next : List ValueId → Build LoweredExpr} (h : ∀ x ∈ xs, Sound x)
    (hnext : ∀ vs, Sound (next vs)) : Sound (onValues xs next) := by
  apply (sound_collectValues h).bind
  intro vs
  cases vs with
  | none => exact sound_pure _
  | some vs => exact hnext vs

theorem Sound.hinted (hx : Sound x) (hint : Ty) (e : HirExpr) :
    Sound (lowerExprHinted B hint e x) := by
  unfold lowerExprHinted
  split
  · exact .ite (fun _ => sound_valueOf (sound_signedLiteral _ _ _)) fun _ => hx
  · exact .ite (fun _ => sound_valueOf (sound_pushValue _ _)) fun _ => hx
  · exact hx

theorem sound_lowerUnary (op : UnaryOp) (hx : Sound x) : Sound (lowerUnary B op e x) := by
  apply (sound_orFail _ _).bind
  intro ty
  have hgeneral : Sound (onValue (lowerExprHinted B ty e x) fun v =>
      valueOf (pushValue ty (unaryKind op v))) :=
    sound_onValue (hx.hinted ty e) fun v => sound_valueOf (sound_pushValue _ _)
  simp only
  split
  · exact .ite (fun _ => sound_valueOf (sound_signedLiteral _ _ _)) fun _ => hgeneral
  · exact hgeneral

theorem sound_lowerOperator {left right : HirExpr} (op : BinaryOp) (hx : Sound x) (hy : Sound y) :
    Sound (lowerOperator B op left right x y) := by
  apply (sound_orFail _ _).bind
  intro ty
  refine sound_onValue (hx.hinted ty left) fun a => sound_onValue (hy.hinted ty right) fun b => ?_
  unfold emitOperator
  split
  · exact sound_valueOf (sound_pushValue _ _)
  · exact sound_throw _

/-! ### Joins -/

theorem builds_storeInto {slot value : ValueId} {after : BlockId} (h : after.index < n) :
    Builds (storeInto slot value after) n fun _ _ => True :=
  (sound_pushInstruction rfl).before fun _ => builds_terminate (by simpa [targets] using h)

theorem builds_joinInto {slot : ValueId} {after : BlockId} (hx : Sound x) (h : after.index < n) :
    Builds (joinInto slot after x) n fun _ _ => True := by
  apply hx.before
  intro v
  cases v with
  | value value => exact builds_storeInto h
  | diverged => exact (sound_pure _).builds

theorem builds_joinThen {slot : ValueId} {after : BlockId} (hasElse : Bool) (hx : Sound x)
    (h : after.index < n) : Builds (joinThen slot after hasElse x) n fun _ _ => True := by
  apply hx.before
  intro v
  cases v with
  | value value =>
    exact .ite (fun _ => builds_storeInto h) fun _ =>
      sound_unitValue.before fun _ => builds_storeInto h
  | diverged => exact (sound_pure _).builds

theorem sound_lowerShortCircuit (shortOnTrue : Bool) (hx : Sound x) (hy : Sound y) :
    Sound (lowerShortCircuit x y shortOnTrue) := by
  refine sound_onValue hx fun v => ?_
  refine builds_newBlock.bind fun k rightBlock _ hright => ?_
  refine builds_newBlock.bind fun k' afterBlock hk' hafter => ?_
  have hright' : rightBlock.index < k' := hright.trans_le hk'
  refine (sound_pushValue _ _).before fun slot => ?_
  refine (sound_pushInstruction rfl).before fun _ => ?_
  refine (builds_terminate ?_).before fun _ => ?_
  · split <;> simp [targets, hright', hafter]
  refine (builds_switchTo hright').before fun _ => ?_
  refine (builds_joinInto hy hafter).before fun _ => ?_
  refine (builds_switchTo hafter).before fun _ => ?_
  exact (sound_valueOf (sound_pushValue _ _)).builds

theorem sound_lowerBinary {left right : HirExpr} (op : BinaryOp) (hx : Sound x) (hy : Sound y) :
    Sound (lowerBinary B op left right x y) := by
  cases op with
  | and => exact sound_lowerShortCircuit false hx hy
  | or => exact sound_lowerShortCircuit true hx hy
  | range => exact sound_throw _
  | rangeInclusive => exact sound_throw _
  | _ => exact sound_lowerOperator _ hx hy

/-! ### Locals, fields and assignments -/

theorem sound_lowerLocal (binding : LocalId) : Sound (lowerLocal B binding) := by
  apply sound_get.bind
  intro fb
  split
  · exact sound_throw _
  · exact sound_valueOf (sound_loadCurrent _ _)

theorem sound_lowerField {base : HirExpr} (hx : Sound x) : Sound (lowerField B e base x) := by
  apply (sound_orFail _ _).bind
  intro ty
  apply Sound.ite
  · intro _
    apply (reads_resolvePlaceExpr e).sound.bind
    intro place
    cases place with
    | none => exact sound_throw _
    | some place =>
      exact (sound_resolveNirPlace place).bind fun _ => sound_valueOf (sound_pushValue _ _)
  · intro _
    refine sound_onValue hx fun value => ?_
    apply (sound_orFail _ _).bind
    intro baseTy
    exact (reads_resolveField _ _).sound.bind fun _ => sound_valueOf (sound_pushValue _ _)

theorem sound_lowerAssignField (target : HirExpr) (hx : Sound x) :
    Sound (lowerAssignField B target e x) := by
  apply (reads_resolvePlaceExpr target).sound.bind
  intro place
  cases place with
  | none => exact sound_throw _
  | some place =>
    apply (sound_resolveNirPlace place).bind
    intro resolved
    refine sound_onValue (hx.hinted _ _) fun assigned => ?_
    exact (sound_pushInstruction rfl).bind fun _ => sound_unit

theorem sound_assignSlot (slot : ValueId) (ty : Ty) (op : AssignOp) (value : ExprId)
    (assigned : ValueId) : Sound (assignSlot B slot ty op value assigned) := by
  apply Sound.ite
  · intro _
    exact (sound_lookupConsumeMode _ _ _).bind fun _ => sound_pushInstruction rfl
  · intro _
    apply (sound_pushValue _ _).bind
    intro loaded
    split
    · exact sound_pure _
    · exact (sound_pushValue _ _).bind fun _ => sound_pushInstruction rfl

theorem sound_lowerAssignLocal (binding : LocalId) (op : AssignOp) (hx : Sound x) :
    Sound (lowerAssignLocal B binding op e x) := by
  apply sound_get.bind
  intro fb
  simp only
  split
  · apply (sound_orFail _ _).bind
    intro ty
    refine sound_onValue (hx.hinted _ _) fun assigned => ?_
    exact (sound_assignSlot _ _ _ _ _).bind fun _ => sound_unit
  · exact sound_throw _

theorem sound_lowerAssign {target : HirExpr} (op : AssignOp) (hx : Sound x) (hy : Sound y) :
    Sound (lowerAssign B target op e x y) := by
  have hboth : Sound (onValue x fun _ => onValue y fun _ => valueOf unitValue) :=
    sound_onValue hx fun _ => sound_onValue hy fun _ => sound_unit
  unfold lowerAssign
  split
  · exact sound_lowerAssignLocal _ op hy
  · apply (sound_orFail _ _).bind
    intro ty
    exact .ite (fun _ => sound_lowerAssignField _ hy) fun _ => hboth
  · exact hboth

/-! ### Calls and constructions -/

theorem mem_of_mem_zip {as : List α} {bs : List β} {p : α × β} (h : p ∈ as.zip bs) : p.2 ∈ bs :=
  (List.of_mem_zip h).2

theorem sound_lowerArguments (context : String) (params : List Ty) (subst : Subst)
    (args : List HirExpr) (h : ∀ x ∈ xs, Sound x) :
    ∀ x ∈ lowerArguments B context params subst args xs, Sound x := by
  intro x hx
  obtain ⟨p, hp, rfl⟩ := List.mem_map.mp hx
  refine sound_onValue ((h p.2 (mem_of_mem_zip hp)).hinted _ _) fun value => ?_
  apply (sound_lookupConsumeMode _ _ _).bind
  intro transfers
  exact sound_valueOf (sound_moveIfTransferred _ _ _)

theorem sound_lowerParts (params : List Ty) (subst : Subst) (args : List HirExpr)
    (h : ∀ x ∈ xs, Sound x) : ∀ x ∈ lowerParts B params subst args xs, Sound x := by
  intro x hx
  obtain ⟨p, hp, rfl⟩ := List.mem_map.mp hx
  exact (h p.2 (mem_of_mem_zip hp)).hinted _ _

theorem sound_resolveCallTypeArgs (id : ExprId) (declared : List TypeParamId) (what : String) :
    Sound (resolveCallTypeArgs B id declared what) :=
  (reads_resolveCallTypeArgs id declared what).sound

theorem sound_resolveCallEvidence (id : ExprId) (requirements : List CapabilityRequirement)
    (what : String) : Sound (resolveCallEvidence B id requirements what) :=
  (reads_resolveCallEvidence id requirements what).sound

theorem sound_lowerVariantConstruct {callTy : Build Ty} {args : List HirExpr} (variant : ItemId)
    (case : ℕ) (id : ExprId) (h : ∀ x ∈ xs, Sound x) (hty : Sound callTy) :
    Sound (lowerVariantConstruct B variant case id args xs callTy) := by
  apply (sound_orFail _ _).bind
  intro layout
  apply (sound_resolveCallTypeArgs _ _ _).bind
  intro typeArgs
  apply Builds.guard
  refine sound_onValues (sound_lowerParts _ _ _ h) fun payload => ?_
  exact hty.bind fun ty => sound_valueOf (sound_pushValue _ _)

theorem sound_lowerProtocolCall (id : ExprId) (protocol : ItemId) (method : ℕ)
    (h : ∀ x ∈ xs, Sound x) : Sound (lowerProtocolCall B id protocol method e xs) := by
  refine sound_onValues h fun args => ?_
  apply (sound_orFail _ _).bind
  intro evidence
  exact (sound_orFail _ _).bind fun ty => sound_valueOf (sound_pushValue _ _)

theorem sound_lowerFunctionCall {args : List HirExpr} (item : ItemId) (h : ∀ x ∈ xs, Sound x) :
    Sound (lowerFunctionCall B item e args xs) := by
  apply (sound_orFail _ _).bind
  intro sig
  apply (sound_resolveCallTypeArgs _ _ _).bind
  intro typeArgs
  apply Builds.guard
  refine sound_onValues (sound_lowerArguments _ _ _ _ h) fun values => ?_
  apply (sound_orFail _ _).bind
  intro requirements
  apply (sound_resolveCallEvidence _ _ _).bind
  intro evidence
  exact (sound_orFail _ _).bind fun ty => sound_valueOf (sound_pushValue _ _)

theorem sound_lowerCall {callee : HirExpr} {args : List HirExpr} (hx : Sound x)
    (h : ∀ x ∈ xs, Sound x) : Sound (lowerCall B e callee args x xs) := by
  unfold lowerCall
  split
  · exact sound_lowerVariantConstruct _ _ _ h (sound_orFail _ _)
  · exact sound_lowerProtocolCall _ _ _ h
  · exact sound_lowerFunctionCall _ h
  · exact sound_onValue hx fun _ => sound_onValues h fun _ => sound_throw _

theorem sound_lowerRecordLiteral {fields : List (ℕ × HirExpr)} (record : ItemId)
    (h : ∀ x ∈ xs, Sound x) : Sound (lowerRecordLiteral B record e fields xs) := by
  apply (sound_orFail _ _).bind
  intro layout
  apply (reads_checkFieldIndices _ _ _ _).sound.bind
  intro _
  split
  · exact sound_throw _
  · apply (sound_resolveCallTypeArgs _ _ _).bind
    intro typeArgs
    refine sound_onValues (sound_lowerParts _ _ _ h) fun values => ?_
    exact (sound_orFail _ _).bind fun ty => sound_valueOf (sound_pushValue _ _)

/-! ### Blocks and branches -/

theorem sound_lowerStmts {statements : List (Build Unit)} (h : ∀ s ∈ statements, Sound s) :
    Sound (lowerStmts statements) := by
  induction statements with
  | nil => exact sound_pure _
  | cons stmt rest ih =>
    apply (h stmt List.mem_cons_self).bind
    intro _
    apply sound_currentTerminated.bind
    intro ended
    exact .ite (fun _ => sound_pure _) fun _ => ih fun s hs => h s (List.mem_cons_of_mem _ hs)

theorem sound_lowerBlockVoid {statements : List (Build Unit)} {tail : Option (Build LoweredExpr)}
    (h : ∀ s ∈ statements, Sound s) (htail : ∀ x, tail = some x → Sound x) :
    Sound (lowerBlockVoid statements tail) := by
  apply (sound_lowerStmts h).bind
  intro reached
  apply Sound.ite
  · intro _
    cases tail with
    | none => exact sound_pure _
    | some x => exact (htail x rfl).bind fun _ => sound_pure _
  · intro _
    exact sound_pure _

theorem sound_lowerBlockValue {statements : List (Build Unit)}
    {tail : Option (Build LoweredExpr)} (h : ∀ s ∈ statements, Sound s)
    (htail : ∀ x, tail = some x → Sound x) : Sound (lowerBlockValue statements tail) := by
  apply (sound_lowerStmts h).bind
  intro reached
  apply Sound.ite
  · intro _
    cases tail with
    | none => exact sound_unit
    | some x => exact htail x rfl
  · intro _
    exact sound_pure _

theorem sound_lowerScopedBlock (id : ExprId) (hx : Sound x) : Sound (lowerScopedBlock B id x) :=
  hx.bind fun _ => (sound_cleanupIfOpen id).bind fun _ => sound_pure _

theorem sound_lowerScopedBlockVoid (id : ExprId) {z : Build Unit} (hz : Sound z) :
    Sound (lowerScopedBlockVoid B id z) :=
  hz.bind fun _ => sound_cleanupIfOpen id

theorem sound_lowerIf {elseBranch : Option (Build LoweredExpr)} {z : Build LoweredExpr}
    (resultTy : Ty) (hz : Sound z) (hx : Sound x) (helse : ∀ y, elseBranch = some y → Sound y) :
    Sound (lowerIf z x elseBranch resultTy) := by
  have hother (w : Build LoweredExpr) (hw : Sound w) : Sound (elseBranch.getD w) := by
    cases elseBranch with
    | none => exact hw
    | some y => exact helse y rfl
  refine sound_onValue hz fun cond => ?_
  refine builds_newBlock.bind fun k thenBlock _ hthen => ?_
  refine builds_newBlock.bind fun k' elseBlock hk' helse' => ?_
  have hthen' : thenBlock.index < k' := hthen.trans_le hk'
  apply Builds.ite
  · intro _
    refine (builds_terminate (by simp [targets, hthen', helse'])).before fun _ => ?_
    refine (builds_switchTo hthen').before fun _ => ?_
    refine hx.before fun _ => ?_
    refine (builds_switchTo helse').before fun _ => ?_
    exact (hother _ (sound_throw _)).before fun _ => (sound_pure _).builds
  · intro _
    refine (sound_pushValue _ _).before fun slot => ?_
    refine builds_newBlock.bind fun k'' after hk'' hafter => ?_
    have hthen'' : thenBlock.index < k'' := hthen'.trans_le hk''
    have helse'' : elseBlock.index < k'' := helse'.trans_le hk''
    refine (builds_terminate (by simp [targets, hthen'', helse''])).before fun _ => ?_
    refine (builds_switchTo hthen'').before fun _ => ?_
    refine (builds_joinThen _ hx hafter).before fun _ => ?_
    refine (builds_switchTo helse'').before fun _ => ?_
    refine (builds_joinInto (hother _ sound_unit) hafter).before fun _ => ?_
    refine (builds_switchTo hafter).before fun _ => ?_
    exact (sound_valueOf (sound_pushValue _ _)).builds

theorem sound_lowerIfIntoReturnSink {z : Build LoweredExpr} (hz : Sound z) (hx : Sound x)
    (hy : Sound y) : Sound (lowerIfIntoReturnSink z x y) := by
  refine sound_onValue hz fun cond => ?_
  refine builds_newBlock.bind fun k thenBlock _ hthen => ?_
  refine builds_newBlock.bind fun k' elseBlock hk' helse => ?_
  have hthen' : thenBlock.index < k' := hthen.trans_le hk'
  refine (builds_terminate (by simp [targets, hthen', helse])).before fun _ => ?_
  refine (builds_switchTo hthen').before fun _ => ?_
  refine hx.before fun _ => ?_
  refine (builds_switchTo helse).before fun _ => ?_
  exact hy.before fun _ => (sound_pure _).builds

/-! ### Loops -/

theorem builds_lowerLoopBody {ctx : LoopCtx} {z : Build Unit} (hz : Sound z)
    (hbreak : ctx.breakTarget.index < n) (hcontinue : ctx.continueTarget.index < n) :
    Builds (lowerLoopBody ctx z) n fun _ _ => True := by
  have henter : Builds (modify fun fb : FnBuilder => { fb with loopStack := ctx :: fb.loopStack } :
      Build PUnit) n fun _ _ => True := by
    intro first a b v ha hn hrun
    cases hrun
    refine ⟨⟨ha.ids, ha.current, ha.begins, ha.defined, ha.targets, ?_⟩, le_rfl, trivial⟩
    intro ctx' hctx
    rcases List.mem_cons.mp hctx with rfl | hctx
    · exact ⟨hbreak.trans_le hn, hcontinue.trans_le hn⟩
    · exact ha.loops ctx' hctx
  have hleave : Sound (modify fun fb : FnBuilder => { fb with loopStack := fb.loopStack.tail } :
      Build PUnit) := by
    intro first a b v ha _ hrun
    cases hrun
    exact ⟨⟨ha.ids, ha.current, ha.begins, ha.defined, ha.targets,
      fun ctx' hctx => ha.loops ctx' (List.mem_of_mem_tail hctx)⟩, le_rfl, trivial⟩
  refine henter.before fun _ => hz.before fun _ => hleave.before fun _ => ?_
  refine sound_currentTerminated.before fun ended => ?_
  apply Builds.ite
  · intro _
    exact builds_terminate (by simpa [targets] using hcontinue)
  · intro _
    exact (sound_pure _).builds

theorem sound_lowerWhile {z : Build Unit} (hx : Sound x) (hz : Sound z) :
    Sound (lowerWhile x z) := by
  refine builds_newBlock.bind fun k header _ hheader => ?_
  refine (builds_terminate (by simpa [targets] using hheader)).before fun _ => ?_
  refine (builds_switchTo hheader).before fun _ => ?_
  refine hx.before fun cond => ?_
  cases cond with
  | diverged => exact (sound_pure _).builds
  | value cond =>
    refine builds_newBlock.bind fun k' loopBody hk' hbody => ?_
    refine builds_newBlock.bind fun k'' after hk'' hafter => ?_
    have hbody' : loopBody.index < k'' := hbody.trans_le hk''
    have hheader' : header.index < k'' := hheader.trans_le (hk'.trans hk'')
    refine (builds_terminate (by simp [targets, hbody', hafter])).before fun _ => ?_
    refine (builds_switchTo hbody').before fun _ => ?_
    exact (builds_lowerLoopBody hz hafter hheader').before fun _ => builds_switchTo hafter

theorem sound_lowerLoop {z : Build Unit} (hz : Sound z) : Sound (lowerLoop z) := by
  refine builds_newBlock.bind fun k header _ hheader => ?_
  refine builds_newBlock.bind fun k' after hk' hafter => ?_
  have hheader' : header.index < k' := hheader.trans_le hk'
  refine (builds_terminate (by simpa [targets] using hheader')).before fun _ => ?_
  refine (builds_switchTo hheader').before fun _ => ?_
  exact (builds_lowerLoopBody hz hafter hheader').before fun _ => builds_switchTo hafter

theorem sound_lowerJump (id : ExprId) (feature : String) {target : LoopCtx → BlockId}
    (htarget : ∀ ctx, target ctx = ctx.breakTarget ∨ target ctx = ctx.continueTarget) :
    Sound (lowerJump B id feature target) := by
  intro first a b v ha hn hrun
  obtain ⟨_, _, hget, hrest⟩ := run_bind_eq_ok.mp hrun
  obtain ⟨rfl, rfl⟩ := run_get_eq_ok.mp hget
  cases hloops : a.loopStack with
  | nil =>
    rw [hloops] at hrest
    exact absurd hrest run_throw_ne_ok
  | cons ctx rest =>
    rw [hloops] at hrest
    obtain ⟨hbreak, hcontinue⟩ := ha.loops ctx (hloops ▸ List.mem_cons_self)
    have hin : (target ctx).index < a.blocks.length := by
      rcases htarget ctx with heq | heq <;> rw [heq] <;> assumption
    have hjump : Builds (emitCheckedCleanup B id >>= fun _ =>
        terminate (.branch (target ctx)) >>= fun _ => pure LoweredExpr.diverged)
        a.blocks.length fun _ _ => True :=
      (sound_emitCheckedCleanup id).before fun _ =>
        (builds_terminate (by simpa [targets] using hin)).before fun _ => (sound_pure _).builds
    exact hjump ha le_rfl hrest

theorem sound_lowerBreak (id : ExprId) (hasValue : Bool) : Sound (lowerBreak B id hasValue) :=
  .ite (fun _ => sound_throw _) fun _ => sound_lowerJump id _ fun _ => .inl rfl

/-! ### Returns -/

theorem sound_finishReturn (retTy : Ty) (value : ValueId) : Sound (finishReturn B retTy value) :=
  (sound_moveIfTransferred _ _ _).bind fun _ => (sound_terminate rfl).bind fun _ => sound_pure _

theorem sound_finishTail (retTy : Ty) (value : ValueId) : Sound (finishTail B retTy value) :=
  .ite (fun _ => (sound_terminate rfl).bind fun _ => sound_pure _) fun _ =>
    sound_finishReturn retTy value

theorem sound_lowerLeaf {finish : ValueId → Build LoweredExpr} (hfinish : ∀ v, Sound (finish v))
    (hint : Ty) (hx : Sound x) : Sound (lowerLeaf B finish hint e x) :=
  sound_onValue (hx.hinted _ _) fun v => (sound_emitCheckedCleanup _).bind fun _ => hfinish v

theorem sound_finishUnit {finish : ValueId → Build LoweredExpr} (hfinish : ∀ v, Sound (finish v)) :
    Sound (finishUnit finish) := sound_unitValue.bind hfinish

theorem sound_lowerIntoReturnSinkBlock {finish : ValueId → Build LoweredExpr}
    {statements : List (Build Unit)} {tail : Option (Build LoweredExpr)}
    (hfinish : ∀ v, Sound (finish v)) (h : ∀ s ∈ statements, Sound s)
    (htail : ∀ x, tail = some x → Sound x) :
    Sound (lowerIntoReturnSinkBlock finish statements tail) := by
  apply (sound_lowerStmts h).bind
  intro reached
  apply Sound.ite
  · intro _
    cases tail with
    | none => exact sound_finishUnit hfinish
    | some x => exact htail x rfl
  · intro _
    exact sound_pure _

theorem sound_lowerReturnVoid (id : ExprId) : Sound (lowerReturnVoid B id) :=
  (sound_emitCheckedCleanup id).bind fun _ => (sound_terminate rfl).bind fun _ => sound_pure _

theorem sound_lowerReturnValue {intoSink : Ty → Build LoweredExpr} (id : ExprId) (hx : Sound x)
    (hsink : ∀ ty, Sound (intoSink ty)) : Sound (lowerReturnValue B id e x intoSink) := by
  apply sound_get.bind
  intro fb
  apply Sound.ite
  · intro _
    exact hsink _
  · intro _
    refine sound_onValue (hx.hinted _ _) fun value => ?_
    exact (sound_emitCheckedCleanup id).bind fun _ => sound_finishReturn _ value

end

end Napitia.Lower

import Napitia.Lower.IntactHandlers

/-!
# Lowered functions are well formed

A function that is lowered has its blocks numbered by their place, jumps only to blocks it
has, and defines every value once; and while it is lowered no block that was ended is
touched again. A module is lowered whole, or what went wrong is all that is left of it.
-/
namespace Napitia.Lower
open Nir StateT
open Hir (ExprId HirHandleArmKind)
open Hir.Body
open Resourceck (CheckedDeferPlan)

section
variable {B : BodyLowering} {x : Build LoweredExpr} {xs : List (Build LoweredExpr)} {e : HirExpr}

/-! ### Statements -/

theorem sound_bindingFor (binding : LocalId) (ty : Ty) (initial : ValueId) :
    Sound (bindingFor B binding e ty initial) := by
  apply Sound.ite
  · intro _
    apply (sound_pushValue _ _).bind
    intro slot
    apply (sound_lookupConsumeMode _ _ _).bind
    intro transfers
    exact (sound_pushInstruction rfl).bind fun _ => sound_pure _
  · intro _
    apply Sound.ite
    · intro _
      apply (sound_lookupConsumeMode _ _ _).bind
      intro transfers
      exact .ite (fun _ => (sound_pushValue _ _).bind fun _ => sound_pure _) fun _ => sound_pure _
    · intro _
      exact sound_pure _

theorem sound_lowerBinding (binding : LocalId) (hx : Sound x) :
    Sound (lowerBinding B binding e x) := by
  apply (sound_orFail _ _).bind
  intro ty
  apply (hx.hinted ty e).bind
  intro v
  cases v with
  | diverged => exact sound_pure _
  | value initial => exact (sound_bindingFor _ _ _).bind fun _ => sound_bindLocal _ _

theorem sound_lowerDrop (id : ExprId) (hx : Sound x) : Sound (lowerDrop B id x) := by
  apply Sound.ite
  · intro _
    exact sound_emitCheckedCleanup id
  · intro _
    apply hx.bind
    intro v
    cases v with
    | value value => exact sound_pushInstruction rfl
    | diverged => exact sound_pure _

theorem sound_captureArgument (call : String) (planned : DeferArg) (arg : ExprId)
    (value : ValueId) : Sound (captureArgument B call planned arg value) := by
  apply (sound_lookupConsumeMode _ _ _).bind
  intro transfers
  apply Builds.guard
  exact .ite (fun _ => sound_pushValue _ _) fun _ => sound_pure _

theorem sound_lowerDeferArgument (item : ItemId) (planned : DeferArg) (hx : Sound x) :
    Sound (lowerDeferArgument B item planned e x) := by
  apply Builds.guard
  apply (reads_deferPlace planned.hint).sound.bind
  intro place
  apply Builds.guard
  apply (hx.hinted _ _).bind
  intro v
  cases v with
  | diverged => exact sound_throw _
  | value value => exact sound_captureArgument _ _ _ _

theorem sound_lowerDeferFunction {args : List HirExpr} (id : ExprId) (item : ItemId)
    (h : ∀ x ∈ xs, Sound x) : Sound (lowerDeferFunction B id item args xs) := by
  apply (sound_orFail _ _).bind
  intro sig
  apply Builds.guard
  apply (sound_orFail _ _).bind
  intro raises
  apply Builds.guard
  apply Builds.guard
  apply (sound_orFail _ _).bind
  intro plan
  apply (reads_checkDeferPlan _ _ _ _).sound.bind
  intro _
  have hargs : Sound (((plannedArgs plan sig.params).zip (args.zip xs)).mapM fun arg =>
      lowerDeferArgument B item arg.1 arg.2.1 arg.2.2) :=
    sound_mapM fun arg harg =>
      sound_lowerDeferArgument item _ (h _ (mem_of_mem_zip (List.of_mem_zip harg).2))
  apply hargs.bind
  intro values
  apply (sound_orFail _ _).bind
  intro requirements
  apply Builds.guard
  exact sound_pure _

theorem sound_lowerDefer {parts : CallParts} (h : PartsSound parts) :
    Sound (lowerDefer B e parts) := by
  have hcall : Sound (lowerDeferCall B e parts) := by
    unfold lowerDeferCall
    split
    · exact sound_lowerDeferFunction _ _ h.args
    · exact sound_throw _
    · exact sound_throw _
  exact hcall.bind fun _ => sound_modify (fun _ => rfl) (fun _ => rfl) (fun _ => rfl) fun _ => rfl

theorem sound_lowerObserve {body : Build Unit} (id : ObservationId) (aliased : LocalId)
    (bodyId : ExprId) (hbody : Sound body) : Sound (lowerObserve B id aliased bodyId body) := by
  apply (sound_orFail _ _).bind
  intro checked
  apply Builds.guard
  apply Builds.guard
  apply (sound_resolveNirPlace _).bind
  intro resolved
  apply Builds.guard
  apply (sound_pushValue _ _).bind
  intro view
  apply (sound_bindLocal _ _).bind
  intro _
  apply hbody.bind
  intro _
  apply sound_currentTerminated.bind
  intro ended
  exact .ite (fun _ => sound_pushInstruction rfl) fun _ => sound_pure _

/-! ### The recursion -/

mutual

/-- Every expression keeps a builder intact, by induction on it. -/
theorem sound_lowerExpr : ∀ e, Sound (lowerExpr B e)
  | .int id value => by
    unfold lowerExpr
    exact (sound_orFail _ _).bind fun ty => sound_valueOf (sound_signedLiteral _ _ _)
  | .float .. | .str .. | .char .. | .bool .. | .error .. => by
    unfold lowerExpr
    exact sound_valueOf (sound_pushValue _ _)
  | .localVar _ binding => by
    unfold lowerExpr
    exact sound_lowerLocal binding
  | .function .. | .protocolMethodRef .. | .cast .. => by
    unfold lowerExpr
    exact sound_throw _
  | .caseRef id variant case => by
    unfold lowerExpr
    exact sound_lowerVariantConstruct variant case id (by simp) (sound_orFail _ _)
  | .unary _ op operand => by
    unfold lowerExpr
    exact sound_lowerUnary op (sound_lowerExpr operand)
  | .binary _ op left right => by
    unfold lowerExpr
    exact sound_lowerBinary op (sound_lowerExpr left) (sound_lowerExpr right)
  | .assign _ target op value => by
    unfold lowerExpr
    exact sound_lowerAssign op (sound_lowerExpr target) (sound_lowerExpr value)
  | .call _ callee args => by
    unfold lowerExpr
    exact sound_lowerCall (sound_lowerExpr callee) (sound_lowerArgs args)
  | .field _ base => by
    unfold lowerExpr
    exact sound_lowerField (sound_lowerExpr base)
  | .tryExpr id operand => by
    unfold lowerExpr
    exact sound_lowerTry id (builds_lowerInvoke _ _ (sound_lowerExpr operand)
      (partsSound_callParts operand))
  | .ifExpr id condition thenBranch elseBranch => by
    unfold lowerExpr
    exact (sound_orFail _ _).bind fun ty => sound_lowerIf ty (sound_lowerExpr condition)
      (sound_scopedBlock thenBranch) (sound_lowerElse elseBranch)
  | .matchExpr id scrutinee arms => by
    unfold lowerExpr
    exact (sound_orFail _ _).bind fun ty => sound_lowerMatchExpr ty (sound_lowerExpr scrutinee)
      (armSound_armBodies arms)
  | .block body => by
    unfold lowerExpr
    exact sound_scopedBlock body
  | .returnExpr id none => by
    unfold lowerExpr
    exact sound_lowerReturnVoid id
  | .returnExpr id (some value) => by
    unfold lowerExpr
    exact sound_lowerReturnValue id (sound_lowerExpr value) fun ty =>
      sound_lowerIntoReturnSink (fun v => sound_finishReturn ty v) ty value _ (sound_lowerExpr value)
  | .breakExpr id value => by
    unfold lowerExpr
    exact sound_lowerBreak id value.isSome
  | .continueExpr id => by
    unfold lowerExpr
    exact sound_lowerJump id _ fun _ => .inr rfl
  | .recordLiteral id record fields => by
    unfold lowerExpr
    exact sound_lowerRecordLiteral record (sound_lowerFields fields)
  | .raise id operand => by
    unfold lowerExpr
    exact sound_lowerRaise id (sound_lowerExpr operand)
  | .handle id operand arms => by
    unfold lowerExpr
    exact (sound_orFail _ _).bind fun ty => sound_lowerHandle ty
      (fun mergeTy => builds_lowerInvoke _ mergeTy (sound_lowerExpr operand)
        (partsSound_callParts operand))
      (armSound_handleBodies arms)

theorem sound_lowerArgs : ∀ args, ∀ x ∈ lowerArgs B args, Sound x
  | [] => by
    unfold lowerArgs
    simp
  | arg :: rest => by
    unfold lowerArgs
    exact List.forall_mem_cons.mpr ⟨sound_lowerExpr arg, sound_lowerArgs rest⟩

theorem sound_lowerFields : ∀ fields, ∀ x ∈ lowerFields B fields, Sound x
  | [] => by
    unfold lowerFields
    simp
  | .mk _ value :: rest => by
    unfold lowerFields
    exact List.forall_mem_cons.mpr ⟨sound_lowerExpr value, sound_lowerFields rest⟩

theorem partsSound_callParts : ∀ e, PartsSound (callParts B e)
  | .call _ callee args => by
    unfold callParts
    exact ⟨sound_lowerExpr callee, sound_lowerArgs args⟩
  | .int .. | .float .. | .str .. | .char .. | .bool .. | .localVar .. | .function ..
  | .caseRef .. | .protocolMethodRef .. | .unary .. | .binary .. | .assign .. | .field ..
  | .cast .. | .tryExpr .. | .ifExpr .. | .matchExpr .. | .block .. | .returnExpr ..
  | .breakExpr .. | .continueExpr .. | .recordLiteral .. | .raise .. | .handle ..
  | .error .. => by
    unfold callParts
    exact ⟨sound_pure _, by simp⟩

theorem sound_lowerElse : ∀ other : Option HirElse, ∀ y, lowerElse B other = some y → Sound y
  | none, y, hy => by
    unfold lowerElse at hy
    cases hy
  | some (.block body), y, hy => by
    unfold lowerElse at hy
    cases hy
    exact sound_scopedBlock body
  | some (.ifExpr inner), y, hy => by
    unfold lowerElse at hy
    cases hy
    exact sound_lowerExpr inner

theorem sound_scopedBlock : ∀ body, Sound (scopedBlock B body)
  | .mk id statements tail => by
    unfold scopedBlock
    exact sound_lowerScopedBlock id
      (sound_lowerBlockValue (sound_statementsOf statements) (sound_lowerTail tail))

theorem sound_lowerTail : ∀ tail : Option HirExpr, ∀ x, lowerTail B tail = some x → Sound x
  | none, x, hx => by
    unfold lowerTail at hx
    cases hx
  | some tail, x, hx => by
    unfold lowerTail at hx
    cases hx
    exact sound_lowerExpr tail

theorem sound_statementsOf : ∀ statements, ∀ s ∈ statementsOf B statements, Sound s
  | [] => by
    unfold statementsOf
    simp
  | stmt :: rest => by
    unfold statementsOf
    exact List.forall_mem_cons.mpr ⟨sound_lowerStmt stmt, sound_statementsOf rest⟩

theorem sound_scopedBlockVoid : ∀ body, Sound (scopedBlockVoid B body)
  | .mk id statements tail => by
    unfold scopedBlockVoid
    exact sound_lowerScopedBlockVoid id
      (sound_lowerBlockVoid (sound_statementsOf statements) (sound_lowerTail tail))

theorem sound_lowerStmt : ∀ stmt, Sound (lowerStmt B stmt)
  | .binding binding value => by
    unfold lowerStmt
    exact sound_lowerBinding binding (sound_lowerExpr value)
  | .expr expr => by
    unfold lowerStmt
    exact (sound_lowerExpr expr).bind fun _ => sound_pure _
  | .defer expr => by
    unfold lowerStmt
    exact sound_lowerDefer (partsSound_callParts expr)
  | .drop expr => by
    unfold lowerStmt
    exact sound_lowerDrop expr.id (sound_lowerExpr expr)
  | .whileLoop condition body => by
    unfold lowerStmt
    exact sound_lowerWhile (sound_lowerExpr condition) (sound_scopedBlockVoid body)
  | .loop body => by
    unfold lowerStmt
    exact sound_lowerLoop (sound_scopedBlockVoid body)
  | .observe id _ aliased body => by
    unfold lowerStmt
    exact sound_lowerObserve id aliased body.id (sound_scopedBlockVoid body)

theorem sound_armBody : ∀ body, Sound (armBody B body)
  | .expr expr => by
    unfold armBody
    exact sound_lowerExpr expr
  | .block (.mk _ statements tail) => by
    unfold armBody
    exact sound_lowerBlockValue (sound_statementsOf statements) (sound_lowerTail tail)

theorem armSound_armBodies : ∀ arms, ∀ body ∈ armBodies B arms, ArmSound body
  | [] => by
    unfold armBodies
    simp
  | .mk _ body :: rest => by
    unfold armBodies
    exact List.forall_mem_cons.mpr
      ⟨armSound_lowerArmBody body.id (sound_armBody body), armSound_armBodies rest⟩

theorem armSound_handleBodies : ∀ arms, ∀ body ∈ handleBodies B arms, ArmSound body
  | [] => by
    unfold handleBodies
    simp
  | .mk _ body :: rest => by
    unfold handleBodies
    exact List.forall_mem_cons.mpr
      ⟨armSound_lowerArmBody body.id (sound_armBody body), armSound_handleBodies rest⟩

theorem sound_lowerIntoReturnSink {finish : ValueId → Build LoweredExpr}
    (hfinish : ∀ v, Sound (finish v)) (hint : Ty) : ∀ e x,
    Sound x → Sound (lowerIntoReturnSink B finish hint e x)
  | .block body, _, _ => by
    unfold lowerIntoReturnSink
    exact sound_blockIntoReturnSink hfinish hint body
  | .matchExpr _ scrutinee arms, _, _ => by
    unfold lowerIntoReturnSink
    exact sound_lowerMatchExprIntoReturnSink (sound_lowerExpr scrutinee)
      (armSound_armsIntoReturnSink hfinish hint arms)
  | .handle _ operand arms, _, _ => by
    unfold lowerIntoReturnSink
    exact sound_lowerHandleIntoReturnSink
      (builds_lowerInvoke _ _ (sound_lowerExpr operand) (partsSound_callParts operand))
      (armSound_handlersIntoReturnSink hfinish hint arms)
  | .ifExpr _ condition thenBranch elseBranch, _, _ => by
    unfold lowerIntoReturnSink
    exact sound_lowerIfIntoReturnSink (sound_lowerExpr condition)
      (sound_blockIntoReturnSink hfinish hint thenBranch)
      (sound_elseIntoReturnSink hfinish hint elseBranch)
  | .int .., _, hx | .float .., _, hx | .str .., _, hx | .char .., _, hx | .bool .., _, hx
  | .localVar .., _, hx | .function .., _, hx | .caseRef .., _, hx | .protocolMethodRef .., _, hx
  | .unary .., _, hx | .binary .., _, hx | .assign .., _, hx | .call .., _, hx | .field .., _, hx
  | .cast .., _, hx | .tryExpr .., _, hx | .returnExpr .., _, hx | .breakExpr .., _, hx
  | .continueExpr .., _, hx | .recordLiteral .., _, hx | .raise .., _, hx | .error .., _, hx => by
    unfold lowerIntoReturnSink
    exact sound_lowerLeaf hfinish hint hx

theorem sound_blockIntoReturnSink {finish : ValueId → Build LoweredExpr}
    (hfinish : ∀ v, Sound (finish v)) (hint : Ty) :
    ∀ body, Sound (blockIntoReturnSink B finish hint body)
  | .mk _ statements none => by
    unfold blockIntoReturnSink tailIntoReturnSink
    exact sound_lowerIntoReturnSinkBlock hfinish (sound_statementsOf statements) (by simp)
  | .mk _ statements (some tail) => by
    unfold blockIntoReturnSink tailIntoReturnSink
    refine sound_lowerIntoReturnSinkBlock hfinish (sound_statementsOf statements) fun x hx => ?_
    cases hx
    exact sound_lowerIntoReturnSink hfinish hint tail _ (sound_lowerExpr tail)

theorem sound_elseIntoReturnSink {finish : ValueId → Build LoweredExpr}
    (hfinish : ∀ v, Sound (finish v)) (hint : Ty) :
    ∀ other : Option HirElse, Sound (elseIntoReturnSink B finish hint other)
  | none => by
    unfold elseIntoReturnSink
    exact sound_finishUnit hfinish
  | some (.block body) => by
    unfold elseIntoReturnSink
    exact sound_blockIntoReturnSink hfinish hint body
  | some (.ifExpr inner) => by
    unfold elseIntoReturnSink
    exact sound_lowerIntoReturnSink hfinish hint inner _ (sound_lowerExpr inner)

theorem armSound_armsIntoReturnSink {finish : ValueId → Build LoweredExpr}
    (hfinish : ∀ v, Sound (finish v)) (hint : Ty) :
    ∀ arms, ∀ body ∈ armsIntoReturnSink B finish hint arms, ArmSound body
  | [] => by
    unfold armsIntoReturnSink
    simp
  | .mk _ body :: rest => by
    unfold armsIntoReturnSink
    have hbody := sound_lowerArmIntoReturnSink (sound_armIntoReturnSink hfinish hint body)
    exact List.forall_mem_cons.mpr
      ⟨fun _ _ _ => hbody.builds, armSound_armsIntoReturnSink hfinish hint rest⟩

theorem armSound_handlersIntoReturnSink {finish : ValueId → Build LoweredExpr}
    (hfinish : ∀ v, Sound (finish v)) (hint : Ty) :
    ∀ arms, ∀ body ∈ handlersIntoReturnSink B finish hint arms, ArmSound body
  | [] => by
    unfold handlersIntoReturnSink
    simp
  | .mk _ body :: rest => by
    unfold handlersIntoReturnSink
    have hbody := sound_lowerArmIntoReturnSink (sound_armIntoReturnSink hfinish hint body)
    exact List.forall_mem_cons.mpr
      ⟨fun _ _ _ => hbody.builds, armSound_handlersIntoReturnSink hfinish hint rest⟩

theorem sound_armIntoReturnSink {finish : ValueId → Build LoweredExpr}
    (hfinish : ∀ v, Sound (finish v)) (hint : Ty) :
    ∀ body, Sound (armIntoReturnSink B finish hint body)
  | .expr expr => by
    unfold armIntoReturnSink
    exact sound_lowerIntoReturnSink hfinish hint expr _ (sound_lowerExpr expr)
  | .block body => by
    unfold armIntoReturnSink
    exact sound_blockIntoReturnSink hfinish hint body

end

/-! ### Functions -/

theorem sound_lowerTailReturn (retTy : Ty) (id : ExprId) (hx : Sound x) :
    Sound (lowerTailReturn B retTy id x) := by
  apply hx.bind
  intro result
  apply sound_currentTerminated.bind
  intro ended
  apply Sound.ite
  · intro _
    cases result with
    | value value =>
      apply (sound_emitCheckedCleanup id).bind
      intro _
      exact (sound_finishTail _ _).bind fun _ => sound_pure _
    | diverged => exact sound_throw _
  · intro _
    exact sound_pure _

theorem sound_lowerBody (retTy : Ty) : ∀ body, Sound (lowerBody B retTy body)
  | .mk id statements tail => by
    unfold lowerBody
    apply Sound.ite
    · intro _
      exact (sound_blockIntoReturnSink (fun v => sound_finishTail _ v) _ _).bind fun _ =>
        sound_pure _
    · intro _
      exact sound_lowerTailReturn _ _
        (sound_lowerBlockValue (sound_statementsOf statements) (sound_lowerTail tail))

theorem lowerParam_spec {a b : FnBuilder} {param : HirParam} {p : Param}
    (h : (lowerParam B param).run a = .ok (p, b)) :
    p.value = ⟨a.nextValue⟩ ∧ b.nextValue = a.nextValue + 1 ∧ b.blocks = a.blocks ∧
      b.current = a.current ∧ b.loopStack = a.loopStack := by
  obtain ⟨ty, a', hty, hafter⟩ := run_bind_eq_ok.mp h
  obtain rfl : a' = a := reads_orFail _ _ hty
  obtain ⟨value, c, hvalue, hbound⟩ := run_bind_eq_ok.mp hafter
  obtain ⟨u, d, hbind, hpure⟩ := run_bind_eq_ok.mp hbound
  obtain ⟨rfl, rfl⟩ := run_pure_eq_ok.mp hpure
  cases hvalue
  cases hbind
  exact ⟨rfl, rfl, rfl, rfl, rfl⟩

theorem lowerParams_spec {a b : FnBuilder} {params : List HirParam} {ps : List Param}
    (h : (params.mapM (lowerParam B)).run a = .ok (ps, b)) :
    ps.map (·.value) = idsFrom a.nextValue b.nextValue ∧ a.nextValue ≤ b.nextValue ∧
      b.blocks = a.blocks ∧ b.current = a.current ∧ b.loopStack = a.loopStack := by
  induction params generalizing a ps with
  | nil =>
    rw [List.mapM_nil] at h
    obtain ⟨rfl, rfl⟩ := run_pure_eq_ok.mp h
    exact ⟨by simp [idsFrom], le_rfl, rfl, rfl, rfl⟩
  | cons param params ih =>
    rw [List.mapM_cons] at h
    obtain ⟨p, c, hp, h⟩ := run_bind_eq_ok.mp h
    obtain ⟨rest, d, hrest, h⟩ := run_bind_eq_ok.mp h
    obtain ⟨rfl, rfl⟩ := run_pure_eq_ok.mp h
    obtain ⟨hvalue, hnext, hblocks, hcurrent, hloops⟩ := lowerParam_spec hp
    obtain ⟨hvalues, hle, hblocks', hcurrent', hloops'⟩ := ih hrest
    refine ⟨?_, by omega, hblocks'.trans hblocks, hcurrent'.trans hcurrent, hloops'.trans hloops⟩
    have hcount : d.nextValue - a.nextValue = (d.nextValue - (a.nextValue + 1)) + 1 := by omega
    rw [List.map_cons, hvalue, hvalues, hnext]
    unfold idsFrom
    rw [hcount, List.range'_succ, List.map_cons]

theorem finishBlocks_eq {name : String} {blocks : List PendingBlock}
    {finished : List BasicBlock} (h : blocks.mapM (finishBlock name) = .ok finished) :
    blocks = finished.map fun b => ⟨b.id, b.instructions, some b.terminator⟩ := by
  induction blocks generalizing finished with
  | nil =>
    rw [List.mapM_nil] at h
    cases h
    rfl
  | cons block blocks ih =>
    rw [List.mapM_cons] at h
    obtain ⟨first, hfirst, h⟩ := Except.bind_eq_ok.mp h
    obtain ⟨others, hothers, h⟩ := Except.bind_eq_ok.mp h
    cases h
    unfold finishBlock at hfirst
    split at hfirst
    · rename_i t hterminator
      cases hfirst
      rw [List.map_cons, ← ih hothers]
      obtain ⟨id, instructions, terminator⟩ := block
      cases hterminator
      rfl
    · cases hfirst

/-- The values that a function defines, by a parameter or by an instruction. -/
def definedIn (g : Function) : List ValueId :=
  g.params.map (·.value) ++ valuesDefined (g.blocks.map (·.instructions))

/-- A function in which every block stands at its own number, every block that is jumped to
exists and the values are the first so many ids, each defined once. -/
structure WellFormed (g : Function) : Prop where
  ids : ∀ {i : ℕ} {block : BasicBlock}, g.blocks[i]? = some block → block.id = ⟨i⟩
  targets : ∀ block ∈ g.blocks, ∀ id ∈ targets block.terminator, ∃ b ∈ g.blocks, b.id = id
  defined : ∃ count, (definedIn g).Perm (idsFrom 0 count)

/-- The blocks of a function as a builder has them when all are ended. -/
def pendingBlocks (g : Function) : List PendingBlock :=
  g.blocks.map fun b => ⟨b.id, b.instructions, some b.terminator⟩

theorem idsFrom_append {first mid next : ℕ} (h : first ≤ mid) (h' : mid ≤ next) :
    idsFrom first mid ++ idsFrom mid next = idsFrom first next := by
  have hmid : mid = first + (mid - first) := by omega
  have hsum : next - first = (mid - first) + (next - mid) := by omega
  unfold idsFrom
  rw [← List.map_append, hsum]
  conv_lhs => rw [show List.range' mid (next - mid) =
    List.range' (first + (mid - first)) (next - mid) by rw [← hmid]]
  rw [List.range'_append_1]

theorem lowerFunction_builder {head : FunctionHead} {f : HirFunction} {g : Function}
    (h : lowerFunction B head f = .ok g) :
    ∃ params fb first,
      (lowerParamsAndBody B head f).run { returnTy := head.returnType } = .ok (params, fb) ∧
      fb.asserted = true ∧ Intact first fb ∧ fb.blocks = pendingBlocks g ∧
      (definedIn g).Perm (idsFrom 0 fb.nextValue) := by
  obtain ⟨⟨params, fb⟩, hlowered, h⟩ := Except.bind_eq_ok.mp h
  obtain ⟨blocks, hblocks, h⟩ := Except.bind_eq_ok.mp h
  cases h
  have hstart : ({ returnTy := head.returnType } : FnBuilder).Ready head.returnType :=
    ⟨⟨_, rfl, rfl⟩, rfl⟩
  have hlowers : Lowers B head.returnType (lowerParamsAndBody B head f)
      (bodyTrail B head.returnType f.body).toRecord fun _ _ => True := by
    apply (straight_mapM straight_lowerParam _).bind
    intro params
    exact (lowers_lowerBody f.body).map_result fun _ _ _ => trivial
  obtain ⟨ps, b, hparams, hrest⟩ := run_bind_eq_ok.mp hlowered
  obtain ⟨u, c, hbody, hpure⟩ := run_bind_eq_ok.mp hrest
  obtain ⟨rfl, rfl⟩ := run_pure_eq_ok.mp hpure
  obtain ⟨hvalues, -, hsame, hcurrent, hloops⟩ := lowerParams_spec hparams
  have hintact : Intact b.nextValue b := by
    refine ⟨fun {i block} hblock => ?_, ?_, le_rfl, ?_, ?_, ?_⟩
    · rw [hsame] at hblock
      match i, hblock with
      | 0, hblock =>
        cases hblock
        rfl
    · rw [hsame, hcurrent]
      exact Nat.one_pos
    · rw [hsame]
      simp [valuesDefined, idsFrom]
    · rw [hsame]
      intro block hblock t ht
      obtain rfl := List.mem_singleton.mp hblock
      cases ht
    · rw [hloops]
      simp
  have hdone := (sound_lowerBody _ f.body hintact (Nat.zero_le _) hbody).1
  have hfinished := finishBlocks_eq hblocks
  have hinstructions : c.blocks.map (·.instructions) = blocks.map (·.instructions) := by
    rw [hfinished, List.map_map]
    rfl
  refine ⟨_, c, b.nextValue, hlowered, (hlowers hstart hlowered).1.asserted, hdone, hfinished, ?_⟩
  have hall := hdone.defined.append_left (idsFrom 0 b.nextValue)
  rw [idsFrom_append b.nextValue.zero_le hdone.begins, hinstructions] at hall
  unfold definedIn
  rw [hvalues]
  exact hall

theorem wellFormed_lowerFunction {head : FunctionHead} {f : HirFunction} {g : Function}
    (h : lowerFunction B head f = .ok g) : WellFormed g := by
  obtain ⟨_, fb, first, -, -, hintact, hblocks, hdefined⟩ := lowerFunction_builder h
  have hget : ∀ {i : ℕ} {block : BasicBlock}, g.blocks[i]? = some block →
      fb.blocks[i]? = some ⟨block.id, block.instructions, some block.terminator⟩ := by
    intro i block hblock
    rw [hblocks, pendingBlocks, List.getElem?_map, hblock]
    rfl
  have hlength : fb.blocks.length = g.blocks.length := by
    rw [hblocks, pendingBlocks, List.length_map]
  have hids : ∀ {i : ℕ} {block : BasicBlock}, g.blocks[i]? = some block → block.id = ⟨i⟩ :=
    fun hblock => hintact.ids (hget hblock)
  refine ⟨hids, fun block hblock id hid => ?_, fb.nextValue, hdefined⟩
  obtain ⟨i, hi⟩ := List.mem_iff_getElem?.mp hblock
  have hlt : id.index < g.blocks.length := by
    rw [← hlength]
    exact hintact.targets _ (List.mem_of_getElem? (hget hi)) _ rfl id hid
  exact ⟨g.blocks[id.index], List.getElem_mem hlt, hids (List.getElem?_eq_getElem hlt)⟩

end

end Napitia.Lower

import Napitia.Lower.Sequences

/-!
# Exits, statements and blocks

What leaves its block asks for the cleanup of its exit first. A block is lowered up to
the first statement that ends it.
-/
namespace Napitia.Lower
open Nir StateT
open Hir (ExprId)
open Hir.Body

section
variable {B : BodyLowering} {retTy : Ty} {α β : Type} {t u : Trail} {x y : Build LoweredExpr}
  {e : HirExpr} {r : Record} {finish : ValueId → Build LoweredExpr}

/-! ### Exits -/

theorem lowersTo_terminate (terminator : Terminator) :
    LowersTo B retTy (terminate terminator >>= fun _ => pure .diverged)
      { ending := .closed } :=
  (lowers_terminate terminator).map_result fun _ _ h => ⟨rfl, h⟩

theorem lowersTo_leave {f : Unit → Build LoweredExpr} (id : ExprId)
    (hf : ∀ v, LowersTo B retTy (f v) { ending := .closed }) :
    LowersTo B retTy (emitCheckedCleanup B id >>= f) (.leaves id) :=
  (lowers_emitCheckedCleanup id).bind (fun _ _ h => h) fun v _ => hf v

theorem lowersTo_finishReturn (ty : Ty) (value : ValueId) :
    LowersTo B retTy (finishReturn B ty value) { ending := .closed } := by
  apply (straight_moveIfTransferred _ _ _).bind
  intro moved
  exact lowersTo_terminate _

theorem lowersTo_finishTail (ty : Ty) (value : ValueId) :
    LowersTo B retTy (finishTail B ty value) { ending := .closed } :=
  .ite (fun _ => lowersTo_terminate _) fun _ => lowersTo_finishReturn ty value

theorem lowersTo_lowerReturnVoid (id : ExprId) :
    LowersTo B retTy (lowerReturnVoid B id) (.leaves id) :=
  lowersTo_leave id fun _ => lowersTo_terminate _

theorem lowersTo_lowerJump (id : ExprId) (feature : String) (target : LoopCtx → BlockId) :
    LowersTo B retTy (lowerJump B id feature target) (.leaves id) := by
  apply Reads.get.straight.bind
  intro fb
  split
  · exact lowers_throw _
  · exact lowersTo_leave id fun _ => lowersTo_terminate _

theorem lowersTo_lowerBreak (id : ExprId) (hasValue : Bool) :
    LowersTo B retTy (lowerBreak B id hasValue) (.leaves id) :=
  .ite (fun _ => lowers_throw _) fun _ => lowersTo_lowerJump id _ _

theorem lowersTo_lowerRaise (id : ExprId) (hx : LowersTo B retTy x t) :
    LowersTo B retTy (lowerRaise B id e x) (t.andThen (.leaves id)) := by
  apply hx.onValue
  intro value
  apply lowersTo_leave id
  intro _
  apply (reads_orFail _ _).straight.bind
  intro ty
  apply (straight_moveIfTransferred _ _ _).bind
  intro moved
  exact lowersTo_terminate _

theorem lowersTo_lowerLeaf (hint : Ty)
    (hfinish : ∀ v, LowersTo B retTy (finish v) { ending := .closed })
    (hx : LowersTo B retTy x (exprTrail B retTy e)) :
    LowersTo B retTy (lowerLeaf B finish hint e x)
      ((exprTrail B retTy e).andThen (.leaves e.id)) := by
  apply (hx.hinted hint).onValue
  intro value
  exact lowersTo_leave e.id fun _ => hfinish value

theorem lowersTo_finishUnit (hfinish : ∀ v, LowersTo B retTy (finish v) { ending := .closed }) :
    LowersTo B retTy (finishUnit finish) { ending := .closed } := by
  apply straight_unitValue.bind
  intro unit
  exact hfinish unit

/-- A returned value: its leaves, if it is a resource, else the exit of the `return`. -/
theorem lowersTo_lowerReturnValue {intoSink : Ty → Build LoweredExpr} (id : ExprId)
    (hx : LowersTo B retTy x (exprTrail B retTy e)) (hsink : LowersTo B retTy (intoSink retTy) u) :
    LowersTo B retTy (lowerReturnValue B id e x intoSink)
      (if B.isAffine retTy then u else (exprTrail B retTy e).andThen (.leaves id)) := by
  intro a b v ha hrun
  obtain ⟨fb, a', hget, hrest⟩ := run_bind_eq_ok.mp hrun
  obtain ⟨rfl, rfl⟩ := run_get_eq_ok.mp hget
  have hty := ha.returnTy
  subst hty
  by_cases haffine : B.isAffine a.returnTy = true
  · rw [if_pos haffine] at hrest ⊢
    exact hsink ha hrest
  · rw [if_neg haffine] at hrest ⊢
    have hvalue : LowersTo B a.returnTy (onValue (lowerExprHinted B a.returnTy e x)
        fun returned => emitCheckedCleanup B id >>= fun _ => finishReturn B a.returnTy returned)
        ((exprTrail B a.returnTy e).andThen (.leaves id)) :=
      (hx.hinted _).onValue fun returned =>
        lowersTo_leave id fun _ => lowersTo_finishReturn _ returned
    exact hvalue ha hrest

/-! ### Blocks -/

inductive StmtsLower (B : BodyLowering) (retTy : Ty) : List (Build Unit) → Trail → Prop
  | nil : StmtsLower B retTy [] {}
  | cons {x : Build Unit} {xs : List (Build Unit)} {t u : Trail} : LowersStmt B retTy x t →
      t.ending ≠ .dangling → StmtsLower B retTy xs u → StmtsLower B retTy (x :: xs) (t.andThen u)

/-- Statements one by one, up to the first that ends the block. -/
theorem lowers_lowerStmts {xs : List (Build Unit)} (h : StmtsLower B retTy xs t) :
    Lowers B retTy (lowerStmts xs) t.toRecord fun v ended => t.ending.Fits v ended := by
  induction h with
  | nil =>
    intro a b v ha hrun
    obtain ⟨rfl, rfl⟩ := run_pure_eq_ok.mp hrun
    exact ⟨.refl ha.isOpen.lt, rfl, FnBuilder.ended_of_open ha.isOpen⟩
  | @cons x xs t u hx hne _ ih =>
    intro a c v ha hrun
    obtain ⟨_, mid, hxrun, hrest⟩ := run_bind_eq_ok.mp hrun
    obtain ⟨ended, b, hterm, hrest⟩ := run_bind_eq_ok.mp hrest
    obtain ⟨rfl, rfl⟩ := reads_currentTerminated hterm
    obtain ⟨hlands, hended⟩ := hx ha hxrun
    cases hending : t.ending with
    | dangling => exact absurd hending hne
    | closed =>
      have hclosed : b.ended = true := by simp [hended, hending]
      rw [hclosed, if_pos rfl] at hrest
      obtain ⟨rfl, rfl⟩ := run_pure_eq_ok.mp hrest
      have hgone : t.ending ≠ .value := by simp [hending]
      rw [andThen_gone hgone, hending]
      exact ⟨hlands, rfl, hclosed⟩
    | value =>
      have hopen : b.ended = false := by simp [hended, hending]
      rw [hopen, if_neg Bool.false_ne_true] at hrest
      have hnext := ih (hlands.ready ha hopen) hrest
      rw [andThen_value hending]
      exact ⟨hlands.trans hnext.1, hnext.2⟩

/-- What stands behind statements is lowered where their end is reached. -/
theorem lowersTo_behind {xs : List (Build Unit)} (h : StmtsLower B retTy xs t)
    (hy : LowersTo B retTy y u) :
    LowersTo B retTy (do if ← lowerStmts xs then y else pure .diverged) (t.andThen u) := by
  refine Lowers.follow id (lowers_lowerStmts h) (fun hending v hv => ?_)
    fun v hv => ?_
  · obtain rfl : v = true := hv
    rw [if_pos rfl, andThen_value hending]
    exact hy
  · obtain rfl : v = false := hv
    exact ⟨.diverged, rfl, fits_gone⟩

theorem lowersTo_lowerBlockValue {xs : List (Build Unit)} {tail : Option (Build LoweredExpr)}
    (h : StmtsLower B retTy xs t) (htail : LowersTo B retTy (tail.getD (valueOf unitValue)) u) :
    LowersTo B retTy (lowerBlockValue xs tail) (t.andThen u) := lowersTo_behind h htail

theorem lowersTo_lowerIntoReturnSinkBlock {xs : List (Build Unit)}
    {tail : Option (Build LoweredExpr)} (h : StmtsLower B retTy xs t)
    (htail : LowersTo B retTy (tail.getD (finishUnit finish)) u) :
    LowersTo B retTy (lowerIntoReturnSinkBlock finish xs tail) (t.andThen u) :=
  lowersTo_behind h htail

theorem LowersTo.discarded (hx : LowersTo B retTy x t) :
    LowersStmt B retTy (x >>= fun _ => pure ()) t.asStmt := by
  refine Lowers.map_result hx fun v ended h => ?_
  rw [h.ended_eq, Trail.asStmt]
  cases t.ending <;> rfl

theorem asStmt_ne_dangling (t : Trail) : t.asStmt.ending ≠ .dangling := by
  unfold Trail.asStmt
  cases t.ending <;> simp [Ending.asStmt]

theorem lowersStmt_lowerBlockVoid {xs : List (Build Unit)} {tail : Option (Build LoweredExpr)}
    (h : StmtsLower B retTy xs t) (htail : ∀ x, tail = some x → LowersTo B retTy x u)
    (hnone : tail = none → u = {}) :
    LowersStmt B retTy (lowerBlockVoid xs tail) (t.andThen u.asStmt) := by
  refine Lowers.follow id (lowers_lowerStmts h) (fun hending v hv => ?_)
    fun v hv => ?_
  · obtain rfl : v = true := hv
    rw [if_pos rfl, andThen_value hending]
    cases htailEq : tail with
    | none =>
      obtain rfl := hnone htailEq
      exact straight_pure _
    | some x => exact (htail x htailEq).discarded
  · obtain rfl : v = false := hv
    refine ⟨(), rfl, fun hgone => ?_⟩
    rw [andThen_gone hgone]

theorem lands_cleanupIfOpen {a b c : FnBuilder} {v : Unit} {id : ExprId} (ha : a.Ready retTy)
    (hlands : Lands B a t.toRecord b) (hended : b.ended = decide (t.ending = .closed))
    (hrun : (cleanupIfOpen B id).run b = .ok (v, c)) :
    Lands B a (t.inScope id).toRecord c ∧ c.ended = b.ended := by
  obtain ⟨ended, b', hterm, hrest⟩ := run_bind_eq_ok.mp hrun
  obtain ⟨rfl, rfl⟩ := reads_currentTerminated hterm
  have hopen : t.ending ≠ .closed → Lands B a (t.toRecord ++ { exits := [id] }) c ∧
      c.ended = b'.ended := by
    intro hne
    have hopen : b'.ended = false := by simp [hended, hne]
    rw [hopen] at hrest ⊢
    have hnext := lowers_emitCheckedCleanup id (hlands.ready ha hopen) hrest
    exact ⟨hlands.trans hnext.1, hnext.2⟩
  unfold Trail.inScope
  cases hending : t.ending with
  | closed =>
    have hclosed : b'.ended = true := by simp [hended, hending]
    rw [hclosed] at hrest ⊢
    obtain ⟨-, rfl⟩ := run_pure_eq_ok.mp hrest
    exact ⟨hlands, hclosed⟩
  | value =>
    have h := hopen (by simp [hending])
    rw [← List.append_nil t.begun]
    exact h
  | dangling =>
    have h := hopen (by simp [hending])
    rw [← List.append_nil t.begun]
    exact h

theorem ending_inScope (t : Trail) (id : ExprId) : (t.inScope id).ending = t.ending := by
  unfold Trail.inScope
  cases h : t.ending <;> simp [h]

theorem lowersTo_lowerScopedBlock (id : ExprId) (hx : LowersTo B retTy x t) :
    LowersTo B retTy (lowerScopedBlock B id x) (t.inScope id) := by
  intro a d v ha hrun
  obtain ⟨w, b, hxrun, hrest⟩ := run_bind_eq_ok.mp hrun
  obtain ⟨_, c, hcleanup, hpure⟩ := run_bind_eq_ok.mp hrest
  obtain ⟨rfl, rfl⟩ := run_pure_eq_ok.mp hpure
  obtain ⟨hlands, hfits⟩ := hx ha hxrun
  obtain ⟨hscope, hended⟩ := lands_cleanupIfOpen ha hlands hfits.ended_eq hcleanup
  rw [ending_inScope, hended]
  exact ⟨hscope, hfits⟩

theorem lowersStmt_lowerScopedBlockVoid {y : Build Unit} (id : ExprId) (hy : LowersStmt B retTy y t) :
    LowersStmt B retTy (lowerScopedBlockVoid B id y) (t.inScope id) := by
  intro a c v ha hrun
  obtain ⟨w, b, hyrun, hcleanup⟩ := run_bind_eq_ok.mp hrun
  obtain ⟨hlands, hended⟩ := hy ha hyrun
  obtain ⟨hscope, hsame⟩ := lands_cleanupIfOpen ha hlands hended hcleanup
  rw [ending_inScope, hsame]
  exact ⟨hscope, hended⟩

/-! ### Statements -/

theorem straight_bindingFor (binding : LocalId) (ty : Ty) (initial : ValueId) :
    Straight B retTy (bindingFor B binding e ty initial) := by
  apply Lowers.ite
  · intro _
    apply (straight_pushValue fun _ => rfl).bind
    intro slot
    apply (reads_lookupConsumeMode _ _ _).straight.bind
    intro transfers
    apply (straight_pushInstruction rfl).bind
    intro _
    exact straight_pure _
  · intro _
    apply Lowers.ite
    · intro _
      apply (reads_lookupConsumeMode _ _ _).straight.bind
      intro transfers
      apply Lowers.ite
      · intro _
        apply (straight_pushValue fun _ => rfl).bind
        intro moved
        exact straight_pure _
      · intro _
        exact straight_pure _
    · intro _
      exact straight_pure _

/-- A statement that does something with the value of an expression, if it has one. -/
theorem LowersTo.statement {f : LoweredExpr → Build Unit} (hx : LowersTo B retTy x t)
    (hvalue : ∀ id, Straight B retTy (f (.value id))) (hgone : f .diverged = pure ()) :
    LowersStmt B retTy (x >>= f) t.asStmt := by
  have h : Lowers B retTy (x >>= f) (t.andThen {}).toRecord fun _ ended =>
      ended = decide (t.asStmt.ending = .closed) := by
    refine LowersTo.follow hx (fun hending id => ?_) ⟨(), hgone, fun _ => ?_⟩
    · refine (hvalue id).mono fun _ ended h => ?_
      rw [h, Trail.asStmt, hending]
      rfl
    · unfold Trail.asStmt
      cases t.ending <;> rfl
  rwa [andThen_nil] at h

theorem lowersStmt_lowerBinding (binding : LocalId) (hx : LowersTo B retTy x (exprTrail B retTy e)) :
    LowersStmt B retTy (lowerBinding B binding e x) (exprTrail B retTy e).asStmt := by
  apply lowers_orFail_bind
  intro ty _
  apply (hx.hinted ty).statement
  · intro initial
    apply (straight_bindingFor binding ty initial).bind
    intro bound
    exact straight_bindLocal _ _
  · rfl

theorem lowersStmt_lowerDrop (id : ExprId) (hx : LowersTo B retTy x t) :
    LowersStmt B retTy (lowerDrop B id x)
      (if (B.cleanupEdges id).isSome then .passes id else t.asStmt) := by
  unfold lowerDrop
  by_cases hplan : (B.cleanupEdges id).isSome = true
  · rw [if_pos hplan, if_pos hplan]
    exact (lowers_emitCheckedCleanup id).mono fun _ _ h => h
  · rw [if_neg hplan, if_neg hplan]
    apply hx.statement
    · intro value
      exact straight_pushInstruction rfl
    · rfl

/-! ### `defer` -/

theorem reads_checkDeferPlan (item : ItemId) (plan : Resourceck.CheckedDeferPlan)
    (sig : FunctionSig) (count : ℕ) : Reads (checkDeferPlan item plan sig count) := by
  exact .guard (.guard (.guard (.guard (.guard (.ite (.throw _) (.pure _))))))

theorem checkDeferPlan_lengths {a b : FnBuilder} {item : ItemId}
    {plan : Resourceck.CheckedDeferPlan} {sig : FunctionSig} {count : ℕ} {v : Unit}
    (h : (checkDeferPlan item plan sig count).run a = .ok (v, b)) :
    (plannedArgs plan sig.params).length = count := by
  unfold checkDeferPlan at h
  have h₁ := (run_guard_eq_ok.mp h).2
  have h₂ := run_guard_eq_ok.mp h₁
  have h₃ := run_guard_eq_ok.mp h₂.2
  have h₄ := run_guard_eq_ok.mp h₃.2
  have h₅ := run_guard_eq_ok.mp h₄.2
  have hmodes := h₂.1
  have htypes := h₃.1
  have hplaces := h₄.1
  have hparams := h₅.1
  simp only [plannedArgs, List.length_map, List.length_zipIdx, List.length_zip]
  omega

theorem straight_captureArgument (call : String) (planned : DeferArg) (arg : ExprId)
    (value : ValueId) : Straight B retTy (captureArgument B call planned arg value) := by
  apply (reads_lookupConsumeMode _ _ _).straight.bind
  intro transfers
  apply Lowers.ite
  · intro _
    exact lowers_throw_bind _
  · intro _
    exact .ite (fun _ => straight_pushValue fun _ => rfl) fun _ => straight_pure _

theorem reads_deferPlace (hint : Ty) : Reads (deferPlace B hint e) :=
  .ite (reads_resolvePlaceExpr e) (.pure _)

theorem lowers_lowerDeferArgument (item : ItemId) (planned : DeferArg)
    (hx : LowersTo B retTy x (exprTrail B retTy e)) :
    Lowers B retTy (lowerDeferArgument B item planned e x) (exprTrail B retTy e).toRecord
      fun _ ended => ended = false ∧ (exprTrail B retTy e).ending = .value := by
  apply Lowers.ite
  · intro _
    exact lowers_throw_bind _
  · intro _
    apply (reads_deferPlace planned.hint).straight.bind
    intro place
    apply Lowers.ite
    · intro _
      exact lowers_throw_bind _
    · intro _ a c v ha hrun
      obtain ⟨w, b, hxrun, hrest⟩ := run_bind_eq_ok.mp hrun
      obtain ⟨hlands, hfits⟩ := hx.hinted planned.hint ha hxrun
      cases w with
      | diverged => exact absurd hrest run_throw_ne_ok
      | value value =>
        have hending := hfits.isValue_iff.mp rfl
        have hopen : b.ended = false := by simp [hfits.ended_eq, hending]
        have hnext := straight_captureArgument _ planned e.id value (hlands.ready ha hopen) hrest
        have hboth := hlands.trans hnext.1
        rw [record_append_nil] at hboth
        exact ⟨hboth, hnext.2, hending⟩

theorem lowers_deferArguments {args : List HirExpr} {xs : List (Build LoweredExpr)}
    (h : ArgsLower B retTy args xs t) (item : ItemId) {planned : List DeferArg}
    (hlength : planned.length = args.length) :
    Lowers B retTy ((planned.zip (args.zip xs)).mapM fun arg =>
        lowerDeferArgument B item arg.1 arg.2.1 arg.2.2) t.toRecord
      fun _ ended => ended = false ∧ t.ending = .value := by
  induction h generalizing planned with
  | nil =>
    obtain rfl := List.eq_nil_of_length_eq_zero hlength
    exact (straight_pure _).mono fun _ _ h => ⟨h, rfl⟩
  | @cons e x es xs t hx _ ih =>
    obtain ⟨first, planned, rfl⟩ := List.exists_cons_of_length_eq_add_one hlength
    rw [List.zip_cons_cons, List.zip_cons_cons, List.mapM_cons]
    intro a c v ha hrun
    obtain ⟨w, b, hxrun, hrest⟩ := run_bind_eq_ok.mp hrun
    obtain ⟨ws, b', hxsrun, hpure⟩ := run_bind_eq_ok.mp hrest
    obtain ⟨rfl, rfl⟩ := run_pure_eq_ok.mp hpure
    obtain ⟨hlands, hopen, hending⟩ := lowers_lowerDeferArgument item first hx ha hxrun
    have hnext := ih (Nat.succ.inj hlength) (hlands.ready ha hopen) hxsrun
    rw [andThen_value hending]
    exact ⟨hlands.trans hnext.1, hnext.2⟩

theorem lowers_lowerDeferFunction {args : List HirExpr} {xs : List (Build LoweredExpr)}
    (id : ExprId) (item : ItemId) (h : ArgsLower B retTy args xs t) :
    Lowers B retTy (lowerDeferFunction B id item args xs) t.toRecord
      fun _ ended => ended = false ∧ t.ending = .value := by
  apply (reads_orFail _ _).straight.bind
  intro sig
  apply Lowers.ite
  · intro _
    exact lowers_throw_bind _
  · intro _
    apply (reads_orFail _ _).straight.bind
    intro raises
    apply Lowers.ite
    · intro _
      exact lowers_throw_bind _
    · intro _
      apply Lowers.ite
      · intro _
        exact lowers_throw_bind _
      · intro _
        apply (reads_orFail _ _).straight.bind
        intro plan a d v ha hrun
        obtain ⟨_, b, hplan, hargs⟩ := run_bind_eq_ok.mp hrun
        obtain ⟨values, c, hvalues, hcapabilities⟩ := run_bind_eq_ok.mp hargs
        obtain ⟨requirements, c', hreqs, hguard⟩ := run_bind_eq_ok.mp hcapabilities
        have hb := reads_checkDeferPlan _ _ _ _ hplan
        subst hb
        have hc := reads_orFail _ _ hreqs
        subst hc
        obtain ⟨-, hpure⟩ := run_guard_eq_ok.mp hguard
        obtain ⟨-, rfl⟩ := run_pure_eq_ok.mp hpure
        exact lowers_deferArguments h item (checkDeferPlan_lengths hplan) ha hvalues

theorem lowersStmt_lowerDefer {parts : CallParts}
    (h : ∀ id callee args, e = .call id callee args →
      ArgsLower B retTy args parts.args (argsTrail B retTy args)) :
    LowersStmt B retTy (lowerDefer B e parts) (exprTrail B retTy e).asStmt := by
  unfold lowerDefer lowerDeferCall
  cases e with
  | call id callee args =>
    cases callee with
    | function calleeId item =>
      have hargs := lowers_lowerDeferFunction id item (h _ _ _ rfl)
      rw [exprTrail, exprTrail, nil_andThen]
      intro a c v ha hrun
      obtain ⟨pending, b, hcall, hmodify⟩ := run_bind_eq_ok.mp hrun
      obtain ⟨hlands, hopen, hending⟩ := hargs ha hcall
      have hpush := @straight_modify B retTy
        (fun fb => { fb with deferCalls := (id, pending) :: fb.deferCalls })
        (fun _ => rfl) (fun _ => rfl) (fun _ => rfl) fun _ => rfl
      have hset := hpush (hlands.ready ha hopen) hmodify
      have hboth := hlands.trans hset.1
      rw [record_append_nil] at hboth
      refine ⟨hboth, ?_⟩
      rw [hset.2, Trail.asStmt, hending]
      rfl
    | _ => exact lowers_throw_bind _
  | _ => exact lowers_throw_bind _

/-! ### `observe` -/

theorem lowersStmt_lowerObserve {body : Build Unit} (id : ObservationId) (aliased : LocalId)
    (bodyId : ExprId) (hbody : LowersStmt B retTy body t) :
    LowersStmt B retTy (lowerObserve B id aliased bodyId body)
      (({ begun := [id] } : Trail).andThen t) := by
  apply lowers_orFail_bind
  intro checked _
  apply Lowers.ite
  · intro _
    exact lowers_throw_bind _
  · intro _
    apply Lowers.ite
    · intro _
      exact lowers_throw_bind _
    · intro _
      apply (straight_resolveNirPlace _).bind
      intro resolved
      apply Lowers.ite
      · intro _
        exact lowers_throw_bind _
      · intro _ a d v ha hrun
        obtain ⟨view, b, hview, hviewed⟩ := run_bind_eq_ok.mp hrun
        obtain ⟨_, c, hbind, hboundRun⟩ := run_bind_eq_ok.mp hviewed
        obtain ⟨_, c', hbodyRun, hendRun⟩ := run_bind_eq_ok.mp hboundRun
        obtain ⟨ended, mid, hterm, hrest⟩ := run_bind_eq_ok.mp hendRun
        obtain ⟨rfl, rfl⟩ := reads_currentTerminated hterm
        cases hview
        have hview : Lands B a { begun := [id] }
            (a.define resolved.2 (.observePlace id resolved.1)) :=
          lands_define resolved.2 (.observePlace id resolved.1) ha.isOpen
        have hopenAt : (a.define resolved.2 (.observePlace id resolved.1)).OpenAt a.current.index :=
          (FnBuilder.openAt_define _ _).mpr ha.isOpen
        have hopen := FnBuilder.ended_of_open hopenAt
        have hbinding : Straight B retTy (bindLocal aliased (.direct ⟨a.nextValue⟩)) :=
          straight_bindLocal _ _
        have hbound := hbinding (hview.ready ha hopen) hbind
        have hstart := hview.trans hbound.1
        have hall := hbody (hstart.ready ha hbound.2) hbodyRun
        have hlands := hstart.trans hall.1
        rw [record_append_nil] at hlands
        by_cases hended : mid.ended = true
        · rw [hended] at hrest
          obtain ⟨-, rfl⟩ := run_pure_eq_ok.mp hrest
          exact ⟨hlands, hall.2⟩
        · have hfalse : mid.ended = false := by simpa using hended
          rw [hfalse] at hrest
          have hclosing : Straight B retTy (pushInstruction (.endObserve id)) :=
            straight_pushInstruction rfl
          have hend := hclosing (hlands.ready ha hfalse) hrest
          have hdone := hlands.trans hend.1
          rw [record_append_nil] at hdone
          refine ⟨hdone, ?_⟩
          rw [hend.2, ← hfalse]
          exact hall.2

end

end Napitia.Lower

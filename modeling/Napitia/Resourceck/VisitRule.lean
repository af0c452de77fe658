import Napitia.Resourceck.StateRule

/-!
# A rule for the points a walk comes to

An invariant of the checker's state that the deferred calls of a body may break. Where
none that the walk comes to does, the invariant holds at every point it comes to: what a
`defer` must not do is asked for where the walk is, not of the body as it is written.
-/
namespace Napitia.Resourceck
open Nir Lower Stateful
open Hir (ExprId)
open Hir.Body

/-- Every call that is deferred from here on is deferred in a state as told. -/
def DefersOnly (C : FlowContext) (D : HirExpr → FlowState → Prop) (p : Point × FlowState) : Prop :=
  ∀ e s, Relation.ReflTransGen (Below C) p (.stmt (.defer e), s) →
    D e (after (checkExprCtxInner C e .read) s)

theorem DefersOnly.below {C : FlowContext} {D : HirExpr → FlowState → Prop} {p q : Point × FlowState}
    (h : DefersOnly C D p) (hstep : Below C p q) : DefersOnly C D q :=
  fun e s hreach => h e s (.head hstep hreach)

/-- The state a scope for deferred calls is closed in. -/
def closeScope (s : FlowState) : FlowState :=
  { s with deferScopes := s.deferScopes.tail
           states := releaseScope s.states (s.deferScopes.headD []) }

/-- The operations of the walk maintain the invariants `I`, a deferred call where `D` allows
it. -/
structure VisitRule {ι : Type} (C : FlowContext) (I : ι → FlowState → Prop) (G : PlaceStates → Prop)
    (P : HirExpr → Prop) (Q : HirStmt → Prop) (D : HirExpr → FlowState → Prop) : Prop
    extends PlaceRule C I G P Q where
  bookkeeping : ∀ {i s s'}, I i s → Same s s' → I i s'
  removed : ∀ binding, Safe I (removeLocal binding)
  deferred : ∀ {i s e}, D e s → I i s → I i (after (afterDefer C e) s)
  opened : ∀ {i s}, I i s → I i (openScope s)
  closed : ∀ {i s}, I i s → I i (closeScope s)
  loopEntered : Safe I pushLoop
  loopLeft : ∀ {entry afterBase} bodyId isLoop, G entry → (∀ states ∈ afterBase, G states) →
    Safe I (popLoop C entry afterBase bodyId isLoop)
  begun : ∀ {i s id source aliased body place}, Q (.observe id source aliased body) →
    observedSource C source = some place → I i s → I i (observeStart C id place aliased body.id s)
  ended : Safe I endObservation

namespace VisitRule
variable {ι : Type} {C : FlowContext} {I : ι → FlowState → Prop} {G : PlaceStates → Prop}
  {P : HirExpr → Prop} {Q : HirStmt → Prop} {D : HirExpr → FlowState → Prop} {i : ι} {s : FlowState}

section
variable (rule : VisitRule C I G P Q D)
include rule

theorem same {α : Type} {x : FlowM α} (h : Within Same x) (hs : I i s) : I i (after x s) :=
  rule.bookkeeping hs (h s)

theorem consumed (id : ExprId) (info : ConsumeInfo) (hs : I i s) : I i (noted C id info s) :=
  rule.same (same_whenever _ (same_recordConsume id info)) hs

theorem compoundOrigin (id : ExprId) (kind : ConsumeKind) (hs : I i s) :
    I i (branchStart C id kind s) := by
  have hsame : Within Same (checkCompoundOrigin C id kind) :=
    .ite (.bind (same_diagnose _) fun _ => .pure _) (.pure _)
  exact rule.same hsame hs

theorem leaked (e : HirExpr) (hs : I i s) : I i (after (rejectLeakedTemporary C e) s) :=
  rule.same (within_rejectLeakedTemporary C same_diagnose e) hs

theorem leakedIf (c : Bool) (e : HirExpr) (hs : I i s) :
    I i (after (whenever c (rejectLeakedTemporary C e)) s) :=
  rule.same (same_whenever _ (within_rejectLeakedTemporary C same_diagnose e)) hs

theorem aliases (callee : HirExpr) (args : List HirExpr) (hs : I i s) :
    I i (after (rejectMixedObserveTakeAliases C callee args) s) := by
  have hsame : Within Same (rejectMixedObserveTakeAliases C callee args) :=
    .ite (same_diagnose _) (.ite (same_diagnose _) (.pure _))
  exact rule.same hsame hs

theorem exprCtx {x : FlowM Unit} (e : HirExpr) (kind : ConsumeKind) (hx : I i (after x s)) :
    I i (after (exprCtx C e kind x) s) := by
  have hsame : Within Same
      (whenever (kind = .returned && !isCompound e && !C.diverges e.id) (recordExit C e.id 0)) :=
    same_whenever _ (same_recordExit C _ _)
  exact rule.bookkeeping hx (hsame _)

theorem exit (id : ExprId) (hs : I i s) :
    I i (after (recordObservationExit id 0 >>= fun _ => recordExit C id 0) s) :=
  rule.same ((same_recordObservationExit _ _).bind fun _ => same_recordExit C _ _) hs

theorem exitIf (c : Bool) (id : ExprId) (hs : I i s) :
    I i (after (whenever c (recordObservationExit id 0 >>= fun _ => recordExit C id 0)) s) := by
  rw [whenever, after_ite]
  split
  · exact rule.exit id hs
  · exact hs

theorem deferScope {α : Type} {x : FlowM α} (hx : I i (after x (openScope s))) :
    I i (after (deferScope x) s) := rule.closed hx

theorem blockOf {x : FlowM Unit} (id : ExprId) (hx : I i (after x (openScope s))) :
    I i (after (blockCtx C id x) s) := by
  have hsame : Within Same (whenever (!C.diverges id) (recordExit C id s.pendingCleanup.length) >>= fun _ =>
      truncateCleanup s.pendingCleanup.length) :=
    (same_whenever _ (same_recordExit C id _)).bind fun _ => same_truncateCleanup _
  exact rule.bookkeeping (rule.closed hx) (hsame _)

theorem observationBody {x : FlowM Unit} (body : HirBlock) (hx : I i (after x (openScope s))) :
    I i (after (observationBody C body x) s) := by
  have hsame := within_rejectLeakedTail C same_diagnose body
  exact rule.bookkeeping (rule.blockOf body.id hx) (hsame _)

theorem observePlace {id : ObservationId} {place : LocalPlace} {aliased : LocalId} {scope : ExprId}
    {x : FlowM Unit} (hx : I i (after x (observeStart C id place aliased scope s))) :
    I i (after (observePlace C id place aliased scope x) s) := by
  unfold Resourceck.observePlace
  unfold observeStart at hx
  rw [after_bind]
  cases hty : C.placeTy place with
  | none =>
    rw [hty] at hx
    exact hx
  | some ty =>
    rw [hty] at hx
    simp only [after_bind, run_get, after_get] at hx ⊢
    cases hstatus : C.placeStatus (after (checkPlaceRead place) s) place with
    | available | dropScheduled | observed =>
      rw [hstatus] at hx
      exact (rule.ended i _ hx).1
    | partiallyMoved | moved | dropped | error =>
      rw [hstatus] at hx
      exact hx

theorem armEntered {entry : PlaceStates} (locals : List LocalId) (hentry : G entry) (hs : I i s) :
    I i (armStart C entry locals s) :=
  (Safe.forM (fun binding _ => rule.bound binding) i _ (rule.swap hs hentry)).1

theorem arm {x : FlowM (ExprId × Bool × Bool)} {entry : PlaceStates} (locals : List LocalId)
    (hx : I i (after x (armStart C entry locals s))) :
    I i (after (armCtx C entry locals x) s) ∧ G ((armCtx C entry locals x).run s).1.1 := by
  have hended : I i (after (armCtx C entry locals x) s) := by
    have hsame : ∀ c id marker, Within Same (whenever c (recordExit C id marker) >>= fun _ =>
        truncateCleanup marker) := fun c id marker =>
      (same_whenever c (same_recordExit C id marker)).bind fun _ => same_truncateCleanup _
    exact (Safe.forM (fun binding _ => rule.removed binding) i _ (rule.same (hsame _ _ _) hx)).1
  exact ⟨hended, rule.states hended⟩

end

section
variable (rule : VisitRule C I G P Q D)
include rule

set_option linter.unusedSectionVars false

mutual

theorem expr : ∀ e kind s, DefersOnly C D (.expr e kind, s) → e.Everywhere P Q → I i s →
    I i (after (checkExprCtxInner C e kind) s)
  | .int .., _, s, _, _, hs | .float .., _, s, _, _, hs | .str .., _, s, _, _, hs
  | .char .., _, s, _, _, hs | .bool .., _, s, _, _, hs | .function .., _, s, _, _, hs
  | .caseRef .., _, s, _, _, hs | .protocolMethodRef .., _, s, _, _, hs
  | .error .., _, s, _, _, hs => by
    rw [checkExprCtxInner]
    exact hs
  | .localVar id binding, kind, s, _, h, hs => by
    unfold HirExpr.Everywhere at h
    rw [checkExprCtxInner]
    exact (rule.localUse kind h i s hs).1
  | .unary _ _ operand, _, s, hd, h, hs => by
    unfold HirExpr.Everywhere at h
    rw [checkExprCtxInner]
    exact expr operand .read s (hd.below .unary) h.2 hs
  | .cast _ operand, _, s, hd, h, hs => by
    unfold HirExpr.Everywhere at h
    rw [checkExprCtxInner]
    exact expr operand .read s (hd.below .cast) h.2 hs
  | .binary _ _ left right, _, s, hd, h, hs => by
    unfold HirExpr.Everywhere at h
    rw [checkExprCtxInner, after_bind]
    exact expr right .read _ (hd.below .right) h.2.2 (expr left .read s (hd.below .left) h.2.1 hs)
  | .assign id target op value, _, s, hd, h, hs => by
    unfold HirExpr.Everywhere at h
    have hvalue := rule.exprCtx value .other
      (expr value .other _ (hd.below .assignValue) h.2.2 (rule.consumed value.id .transfer hs))
    rw [checkExprCtxInner, after_bind, after_bind]
    cases howned : ownedTarget C target with
    | some place => exact (rule.reassigned h.1 howned i _ hvalue).1
    | none => exact expr target .read _ (hd.below (.assignTarget howned)) h.2.1 hvalue
  | .call _ callee args, _, s, hd, h, hs => by
    unfold HirExpr.Everywhere at h
    have hcallee := expr callee .read s (hd.below .callee) h.2.1 hs
    rw [checkExprCtxInner, after_bind]
    cases hmalformed : malformedCallee C callee args with
    | true => exact rule.same (same_diagnose _) hcallee
    | false =>
      exact argList callee 0 args _ (hd.below (.callArgs hmalformed)) h.2.2
        (rule.aliases callee args hcallee)
  | .field id base, kind, s, hd, h, hs => by
    unfold HirExpr.Everywhere at h
    rw [checkExprCtxInner]
    cases hplace : C.resolvePlace (.field id base) with
    | some place =>
      rw [after_ite]
      split
      · rename_i hmoves
        rw [Bool.and_eq_true] at hmoves
        rw [after_bind]
        exact rule.same (same_recordConsume id .transfer) (rule.placeMove h.1 hmoves.2 hplace i s hs).1
      · exact (rule.placeRead place i s hs).1
    | none => exact rule.leaked base (expr base .read s (hd.below (.fieldBase hplace)) h.2 hs)
  | .tryExpr id operand, _, s, hd, h, hs => by
    unfold HirExpr.Everywhere at h
    rw [checkExprCtxInner, after_bind]
    exact rule.exit id (expr operand .read s (hd.below .tryExpr) h.2 hs)
  | .ifExpr id condition thenBranch elseBranch, kind, s, hd, h, hs => by
    unfold HirExpr.Everywhere at h
    have hentry := rule.compoundOrigin id kind (expr condition .read s (hd.below .condition) h.2.1 hs)
    have hthen := rule.blockOf thenBranch.id
      (block thenBranch _ _ (hd.below (.thenBranch rfl)) h.2.2.1 (rule.opened hentry))
    obtain ⟨helse, helseExit⟩ := elseBranchOf _ _ elseBranch _ (hd.below (.elseBranch rfl rfl rfl))
      (rule.states hentry) h.2.2.2 (rule.swap hthen (rule.states hentry))
    rw [checkExprCtxInner]
    exact (rule.joined _ (rule.states hentry)
      (List.forall_mem_cons.mpr ⟨rule.states hthen, List.forall_mem_singleton.mpr helseExit⟩) i _ helse).1
  | .matchExpr id scrutinee arms, kind, s, hd, h, hs => by
    unfold HirExpr.Everywhere at h
    have hscrutinee := rule.exprCtx scrutinee (scrutineeKind C scrutinee)
      (expr scrutinee (scrutineeKind C scrutinee) s (hd.below .scrutinee) h.2.1 hs)
    have hentry := rule.compoundOrigin id kind hscrutinee
    obtain ⟨harms, hexits⟩ := matchArms id _ _ arms _ (hd.below (.matchArms rfl)) (rule.states hentry)
      h.2.2 hentry
    rw [checkExprCtxInner]
    exact (rule.joined _ (rule.states hentry) hexits i _ harms).1
  | .block b, kind, s, hd, h, hs => by
    unfold HirExpr.Everywhere at h
    rw [checkExprCtxInner]
    exact rule.blockOf b.id (block b kind _ (hd.below .block) h.2 (rule.opened hs))
  | .returnExpr id none, _, s, _, _, hs => by
    rw [checkExprCtxInner]
    exact rule.exit id hs
  | .returnExpr id (some value), _, s, hd, h, hs => by
    unfold HirExpr.Everywhere ValueEverywhere at h
    rw [checkExprCtxInner]
    exact rule.exit id (rule.exprCtx value .returned (expr value .returned s (hd.below .returned) h.2 hs))
  | .breakExpr id none, _, s, _, _, hs => by
    rw [checkExprCtxInner]
    exact (rule.broke id i s hs).1
  | .breakExpr id (some value), _, s, hd, h, hs => by
    unfold HirExpr.Everywhere ValueEverywhere at h
    rw [checkExprCtxInner]
    exact (rule.broke id i _
      (rule.exprCtx value .other (expr value .other s (hd.below .broken) h.2 hs))).1
  | .continueExpr id, _, s, _, _, hs => by
    rw [checkExprCtxInner]
    exact (rule.continued id i s hs).1
  | .recordLiteral _ _ fields, _, s, hd, h, hs => by
    unfold HirExpr.Everywhere at h
    rw [checkExprCtxInner]
    exact fieldList fields s (hd.below .record) h.2 hs
  | .raise id operand, _, s, hd, h, hs => by
    unfold HirExpr.Everywhere at h
    rw [checkExprCtxInner, after_bind]
    exact rule.exit id (rule.exprCtx operand .other (expr operand .other s (hd.below .raised) h.2 hs))
  | .handle id operand arms, kind, s, hd, h, hs => by
    unfold HirExpr.Everywhere at h
    have hentry := rule.compoundOrigin id kind (expr operand .read s (hd.below .handled) h.2.1 hs)
    obtain ⟨harms, hexits⟩ := handleArms id _ _ arms _ (hd.below (.handleArms rfl)) (rule.states hentry)
      h.2.2 hentry
    rw [checkExprCtxInner]
    exact (rule.joined _ (rule.states hentry) hexits i _ harms).1

theorem argList (callee : HirExpr) : ∀ index args s, DefersOnly C D (.args callee index args, s) →
    ArgsEverywhere P Q args → I i s → I i (after (checkArgs C callee index args) s)
  | _, [], s, _, _, hs => by
    rw [checkArgs]
    exact hs
  | index, arg :: rest, s, hd, h, hs => by
    unfold ArgsEverywhere at h
    have harg := rule.exprCtx arg (argKind C callee index)
      (expr arg (argKind C callee index) _ (hd.below .arg) h.1
        (rule.consumed arg.id (argInfo C callee index) hs))
    rw [checkArgs]
    exact argList callee (index + 1) rest _ (hd.below .nextArg) h.2 (rule.leakedIf _ arg harg)

theorem fieldList : ∀ fields s, DefersOnly C D (.fields fields, s) → FieldsEverywhere P Q fields →
    I i s → I i (after (checkFields C fields) s)
  | [], s, _, _, hs => by
    rw [checkFields]
    exact hs
  | .mk _ value :: rest, s, hd, h, hs => by
    unfold FieldsEverywhere at h
    rw [checkFields, after_bind]
    exact fieldList rest _ (hd.below .nextField) h.2
      (rule.exprCtx value .other (expr value .other s (hd.below .field) h.1 hs))

theorem elseBranchOf (entry : PlaceStates) (kind : ConsumeKind) : ∀ branch s,
    DefersOnly C D (.elseBranch entry kind branch, s) → G entry → ElseEverywhere P Q branch → I i s →
    I i (after (checkElse C entry kind branch) s) ∧ G ((checkElse C entry kind branch).run s).1.1
  | none, s, _, hentry, _, hs => by
    rw [checkElse]
    exact ⟨hs, hentry⟩
  | some (.block b), s, hd, hentry, h, hs => by
    unfold ElseEverywhere at h
    have hblock := rule.blockOf b.id (block b kind _ (hd.below .elseBlock) h (rule.opened hs))
    rw [checkElse]
    have hswap : I i { after (blockCtx C b.id (checkBlockCtxInner C b kind)) s with states := entry } :=
      rule.swap hblock hentry
    have hexit := rule.states hblock
    exact ⟨hswap, hexit⟩
  | some (.ifExpr e), s, hd, _, h, hs => by
    unfold ElseEverywhere at h
    have hvalue := rule.exprCtx e kind (expr e kind s (hd.below .elseIf) h hs)
    rw [checkElse]
    exact ⟨hvalue, rule.states hvalue⟩

theorem armBody (constructId : ExprId) (kind : ConsumeKind) : ∀ (body : HirMatchArmBody) s,
    DefersOnly C D (.armBody constructId kind body, s) → body.Everywhere P Q → I i s →
    I i (after (checkArmBody C constructId kind body) s)
  | .expr e, s, hd, h, hs => by
    unfold HirMatchArmBody.Everywhere at h
    have hvalue := rule.exprCtx e kind (expr e kind s (hd.below .armExpr) h hs)
    have hexit := rule.exitIf (kind = .returned && C.isAffineExpr constructId && !C.diverges e.id) e.id hvalue
    rw [checkArmBody]
    exact hexit
  | .block b, s, hd, h, hs => by
    unfold HirMatchArmBody.Everywhere at h
    rw [checkArmBody]
    exact rule.deferScope (block b kind _ (hd.below .armBlock) h (rule.opened hs))

theorem matchArms (constructId : ExprId) (entry : PlaceStates) (kind : ConsumeKind) : ∀ arms s,
    DefersOnly C D (.matchArms constructId entry kind arms, s) → G entry →
    MatchArmsEverywhere P Q arms → I i s →
    I i (after (checkMatchArms C constructId entry kind arms) s) ∧
      ∀ branch ∈ ((checkMatchArms C constructId entry kind arms).run s).1, G branch.1
  | [], s, _, _, _, hs => by
    rw [checkMatchArms]
    exact ⟨hs, List.forall_mem_nil _⟩
  | .mk pattern body :: rest, s, hd, hentry, h, hs => by
    unfold MatchArmsEverywhere at h
    obtain ⟨harm, hexit⟩ := rule.arm (patternLocals pattern) (armBody constructId kind body _
      (hd.below .matchArm) h.1 (rule.armEntered (patternLocals pattern) hentry hs))
    obtain ⟨hrest, hexits⟩ := matchArms constructId entry kind rest _ (hd.below .nextMatchArm) hentry
      h.2 harm
    rw [checkMatchArms]
    exact ⟨hrest, List.forall_mem_cons.mpr ⟨hexit, hexits⟩⟩

theorem handleArms (constructId : ExprId) (entry : PlaceStates) (kind : ConsumeKind) : ∀ arms s,
    DefersOnly C D (.handleArms constructId entry kind arms, s) → G entry →
    HandleArmsEverywhere P Q arms → I i s →
    I i (after (checkHandleArms C constructId entry kind arms) s) ∧
      ∀ branch ∈ ((checkHandleArms C constructId entry kind arms).run s).1, G branch.1
  | [], s, _, _, _, hs => by
    rw [checkHandleArms]
    exact ⟨hs, List.forall_mem_nil _⟩
  | .mk armKind body :: rest, s, hd, hentry, h, hs => by
    unfold HandleArmsEverywhere at h
    obtain ⟨harm, hexit⟩ := rule.arm (handleLocals armKind) (armBody constructId kind body _
      (hd.below .handleArm) h.1 (rule.armEntered (handleLocals armKind) hentry hs))
    obtain ⟨hrest, hexits⟩ := handleArms constructId entry kind rest _ (hd.below .nextHandleArm) hentry
      h.2 harm
    rw [checkHandleArms]
    exact ⟨hrest, List.forall_mem_cons.mpr ⟨hexit, hexits⟩⟩

theorem block : ∀ (b : HirBlock) kind s, DefersOnly C D (.block b kind, s) → b.Everywhere P Q →
    I i s → I i (after (checkBlockCtxInner C b kind) s)
  | .mk _ statements none, _, s, hd, h, hs => by
    unfold HirBlock.Everywhere at h
    have hstmts := stmts statements s (hd.below .blockStmts) h.1 hs
    rw [checkBlockCtxInner, after_bind, after_ite]
    split <;> exact hstmts
  | .mk _ statements (some tail), kind, s, hd, h, hs => by
    unfold HirBlock.Everywhere ValueEverywhere at h
    have hstmts := stmts statements s (hd.below .blockStmts) h.1 hs
    rw [checkBlockCtxInner, after_bind, after_ite]
    split
    · rename_i hended
      have htail := rule.exprCtx tail kind (expr tail kind _ (hd.below (.blockTail hended)) h.2 hstmts)
      exact rule.exitIf (kind = .returned && !C.diverges tail.id) tail.id htail
    · exact hstmts

theorem stmts : ∀ statements s, DefersOnly C D (.stmts statements, s) → StmtsEverywhere P Q statements →
    I i s → I i (after (checkStmts C statements) s)
  | [], s, _, _, hs => by
    rw [checkStmts]
    exact hs
  | st :: rest, s, hd, h, hs => by
    unfold StmtsEverywhere at h
    have hstmt := stmt st s (hd.below .firstStmt) h.1 hs
    rw [checkStmts, after_bind, after_ite]
    split
    · exact hstmt
    · rename_i hgoes
      exact stmts rest _ (hd.below (.nextStmt (Bool.eq_false_of_not_eq_true hgoes))) h.2 hstmt

theorem stmt : ∀ (st : HirStmt) s, DefersOnly C D (.stmt st, s) → st.Everywhere P Q → I i s →
    I i (after (checkStmt C st) s)
  | .binding binding value, s, hd, h, hs => by
    unfold HirStmt.Everywhere at h
    have hvalue := rule.exprCtx value .other
      (expr value .other _ (hd.below .bound) h.2 (rule.consumed value.id .transfer hs))
    rw [checkStmt]
    exact (rule.bound binding i _ hvalue).1
  | .expr e, s, hd, h, hs => by
    unfold HirStmt.Everywhere at h
    rw [checkStmt]
    exact rule.leaked e (expr e .read s (hd.below .stmtExpr) h.2 hs)
  | .defer e, s, hd, h, hs => by
    unfold HirStmt.Everywhere at h
    rw [checkStmt]
    exact rule.deferred (hd e s .refl) (expr e .read s (hd.below .deferred) h.2 hs)
  | .drop e, s, hd, h, hs => by
    unfold HirStmt.Everywhere at h
    rw [checkStmt]
    cases hlocal : droppedLocal e with
    | some binding => exact (rule.localDrop h.1 hlocal i s hs).1
    | none =>
      cases hfield : droppedField C e with
      | some place => exact (rule.fieldDrop h.1 hfield i s hs).1
      | none => exact rule.exprCtx e .other (expr e .other s (hd.below (.dropped hlocal hfield)) h.2 hs)
  | .whileLoop condition body, s, hd, h, hs => by
    unfold HirStmt.Everywhere at h
    have hcondition := expr condition .read _ (hd.below .whileCondition) h.2.1
      (rule.loopEntered i s hs).1
    have hbody := rule.blockOf body.id
      (block body .read _ (hd.below .whileBody) h.2.2 (rule.opened hcondition))
    rw [checkStmt]
    exact (rule.loopLeft body.id false (rule.states hs)
      (fun states hmem => Option.some.inj hmem ▸ rule.states hcondition) i _ hbody).1
  | .loop body, s, hd, h, hs => by
    unfold HirStmt.Everywhere at h
    have hbody := rule.blockOf body.id
      (block body .read _ (hd.below .loopBody) h.2 (rule.opened (rule.loopEntered i s hs).1))
    rw [checkStmt]
    exact (rule.loopLeft body.id true (rule.states hs) (fun states hmem => by cases hmem) i _ hbody).1
  | .observe id source aliased body, s, hd, h, hs => by
    unfold HirStmt.Everywhere at h
    rw [checkStmt]
    cases hsource : observedSource C source with
    | some place =>
      have hbegun := rule.begun h.1 hsource hs
      have hbody := rule.observationBody body
        (block body .read _ (hd.below (.observeBody hsource)) h.2.2 (rule.opened hbegun))
      have hobserved := rule.observePlace hbody
      unfold observedSource at hsource
      rw [hsource]
      exact hobserved
    | none =>
      have hread := expr source .read s (hd.below (.observeSource hsource)) h.2.1 hs
      have hbody := rule.observationBody body
        (block body .read _ (hd.below (.observeRead hsource)) h.2.2 (rule.opened hread))
      unfold observedSource at hsource
      rw [hsource]
      exact hbody

end

/-- What is asked of a point, and the invariants, are handed on to the points below it. -/
theorem below {p q : Point × FlowState} (h : Below C p q) (hd : DefersOnly C D p)
    (hp : p.1.Holds G P Q) (hs : I i p.2) : q.1.Holds G P Q ∧ I i q.2 := by
  cases h with
  | unary | cast | tryExpr | raised | fieldBase =>
    unfold Point.Holds HirExpr.Everywhere at hp
    exact ⟨hp.2, hs⟩
  | left | callee | condition | handled | scrutinee =>
    unfold Point.Holds HirExpr.Everywhere at hp
    exact ⟨hp.2.1, hs⟩
  | @right id op left right kind s =>
    unfold Point.Holds HirExpr.Everywhere at hp
    exact ⟨hp.2.2, rule.expr left .read s (hd.below .left) hp.2.1 hs⟩
  | @assignValue id target op value kind s =>
    unfold Point.Holds HirExpr.Everywhere at hp
    exact ⟨hp.2.2, rule.consumed value.id .transfer hs⟩
  | @assignTarget id target op value kind s =>
    unfold Point.Holds HirExpr.Everywhere at hp
    exact ⟨hp.2.1, rule.exprCtx value .other
      (rule.expr value .other _ (hd.below .assignValue) hp.2.2 (rule.consumed value.id .transfer hs))⟩
  | @callArgs id callee args kind s =>
    unfold Point.Holds HirExpr.Everywhere at hp
    exact ⟨hp.2.2, rule.aliases callee args (rule.expr callee .read s (hd.below .callee) hp.2.1 hs)⟩
  | @thenBranch id condition thenBranch elseBranch kind s s' h =>
    subst h
    unfold Point.Holds HirExpr.Everywhere at hp
    have hcondition := rule.expr condition .read s (hd.below .condition) hp.2.1 hs
    exact ⟨hp.2.2.1, rule.opened (rule.compoundOrigin id kind hcondition)⟩
  | @elseBranch id condition thenBranch elseBranch kind s s' kind' t h hkind ht =>
    subst h hkind ht
    unfold Point.Holds HirExpr.Everywhere at hp
    have hentry := rule.compoundOrigin id kind
      (rule.expr condition .read s (hd.below .condition) hp.2.1 hs)
    have hthen := rule.blockOf thenBranch.id
      (rule.block thenBranch _ _ (hd.below (.thenBranch rfl)) hp.2.2.1 (rule.opened hentry))
    exact ⟨⟨rule.states hentry, hp.2.2.2⟩, rule.swap hthen (rule.states hentry)⟩
  | @matchArms id scrutinee arms kind s s' h =>
    subst h
    unfold Point.Holds HirExpr.Everywhere at hp
    have hscrutinee := rule.exprCtx scrutinee (scrutineeKind C scrutinee)
      (rule.expr scrutinee (scrutineeKind C scrutinee) s (hd.below .scrutinee) hp.2.1 hs)
    have hentry := rule.compoundOrigin id kind hscrutinee
    exact ⟨⟨rule.states hentry, hp.2.2⟩, hentry⟩
  | block =>
    unfold Point.Holds HirExpr.Everywhere at hp
    exact ⟨hp.2, rule.opened hs⟩
  | returned | broken =>
    unfold Point.Holds HirExpr.Everywhere ValueEverywhere at hp
    exact ⟨hp.2, hs⟩
  | record =>
    unfold Point.Holds HirExpr.Everywhere at hp
    exact ⟨hp.2, hs⟩
  | @handleArms id operand arms kind s s' h =>
    subst h
    unfold Point.Holds HirExpr.Everywhere at hp
    have hentry := rule.compoundOrigin id kind
      (rule.expr operand .read s (hd.below .handled) hp.2.1 hs)
    exact ⟨⟨rule.states hentry, hp.2.2⟩, hentry⟩
  | @arg callee index arg rest s =>
    unfold Point.Holds ArgsEverywhere at hp
    exact ⟨hp.1, rule.consumed arg.id (argInfo C callee index) hs⟩
  | @nextArg callee index arg rest s =>
    unfold Point.Holds ArgsEverywhere at hp
    have harg := rule.exprCtx arg (argKind C callee index)
      (rule.expr arg (argKind C callee index) _ (hd.below .arg) hp.1
        (rule.consumed arg.id (argInfo C callee index) hs))
    exact ⟨hp.2, rule.leakedIf (!takes C callee index) arg harg⟩
  | field =>
    unfold Point.Holds FieldsEverywhere at hp
    exact ⟨hp.1, hs⟩
  | @nextField name value rest s =>
    unfold Point.Holds FieldsEverywhere at hp
    exact ⟨hp.2, rule.exprCtx value .other (rule.expr value .other s (hd.below .field) hp.1 hs)⟩
  | elseBlock =>
    unfold Point.Holds ElseEverywhere at hp
    exact ⟨hp.2, rule.opened hs⟩
  | elseIf =>
    unfold Point.Holds ElseEverywhere at hp
    exact ⟨hp.2, hs⟩
  | armExpr =>
    unfold Point.Holds HirMatchArmBody.Everywhere at hp
    exact ⟨hp, hs⟩
  | armBlock =>
    unfold Point.Holds HirMatchArmBody.Everywhere at hp
    exact ⟨hp, rule.opened hs⟩
  | @matchArm constructId entry kind pattern body rest s =>
    unfold Point.Holds MatchArmsEverywhere at hp
    exact ⟨hp.2.1, rule.armEntered (patternLocals pattern) hp.1 hs⟩
  | @nextMatchArm constructId entry kind pattern body rest s =>
    unfold Point.Holds MatchArmsEverywhere at hp
    have harm := rule.arm (patternLocals pattern) (rule.armBody constructId kind body _
      (hd.below .matchArm) hp.2.1 (rule.armEntered (patternLocals pattern) hp.1 hs))
    exact ⟨⟨hp.1, hp.2.2⟩, harm.1⟩
  | @handleArm constructId entry kind armKind body rest s =>
    unfold Point.Holds HandleArmsEverywhere at hp
    exact ⟨hp.2.1, rule.armEntered (handleLocals armKind) hp.1 hs⟩
  | @nextHandleArm constructId entry kind armKind body rest s =>
    unfold Point.Holds HandleArmsEverywhere at hp
    have harm := rule.arm (handleLocals armKind) (rule.armBody constructId kind body _
      (hd.below .handleArm) hp.2.1 (rule.armEntered (handleLocals armKind) hp.1 hs))
    exact ⟨⟨hp.1, hp.2.2⟩, harm.1⟩
  | blockStmts =>
    unfold Point.Holds HirBlock.Everywhere at hp
    exact ⟨hp.1, hs⟩
  | @blockTail id statements tail kind s h =>
    unfold Point.Holds HirBlock.Everywhere ValueEverywhere at hp
    exact ⟨hp.2, rule.stmts statements s (hd.below .blockStmts) hp.1 hs⟩
  | firstStmt =>
    unfold Point.Holds StmtsEverywhere at hp
    exact ⟨hp.1, hs⟩
  | @nextStmt st rest s h =>
    unfold Point.Holds StmtsEverywhere at hp
    exact ⟨hp.2, rule.stmt st s (hd.below .firstStmt) hp.1 hs⟩
  | @bound binding value s =>
    unfold Point.Holds HirStmt.Everywhere at hp
    exact ⟨hp.2, rule.consumed value.id .transfer hs⟩
  | stmtExpr | deferred | dropped =>
    unfold Point.Holds HirStmt.Everywhere at hp
    exact ⟨hp.2, hs⟩
  | whileCondition =>
    unfold Point.Holds HirStmt.Everywhere at hp
    exact ⟨hp.2.1, (rule.loopEntered i _ hs).1⟩
  | @whileBody condition body s =>
    unfold Point.Holds HirStmt.Everywhere at hp
    exact ⟨hp.2.2, rule.opened (rule.expr condition .read _ (hd.below .whileCondition) hp.2.1
      (rule.loopEntered i _ hs).1)⟩
  | loopBody =>
    unfold Point.Holds HirStmt.Everywhere at hp
    exact ⟨hp.2, rule.opened (rule.loopEntered i _ hs).1⟩
  | observeSource h =>
    unfold Point.Holds HirStmt.Everywhere at hp
    exact ⟨hp.2.1, hs⟩
  | @observeRead id source aliased body s h =>
    unfold Point.Holds HirStmt.Everywhere at hp
    exact ⟨hp.2.2, rule.opened (rule.expr source .read s (hd.below (.observeSource h)) hp.2.1 hs)⟩
  | observeBody h =>
    unfold Point.Holds HirStmt.Everywhere at hp
    exact ⟨hp.2.2, rule.opened (rule.begun hp.1 h hs)⟩

/-- The invariants hold at every point the walk of a function comes to. -/
theorem visits {f : HirFunction} (hbody : f.body.Everywhere P Q)
    (hd : ∀ e s, Visits C f (.stmt (.defer e)) s → D e (after (checkExprCtxInner C e .read) s))
    (hstart : I i (bodyStart C f)) {point : Point} (h : Visits C f point s) :
    point.Holds G P Q ∧ I i s := by
  have hrun : ∀ q, Relation.ReflTransGen (Below C) (.block f.body .returned, bodyStart C f) q →
      q.1.Holds G P Q ∧ I i q.2 := by
    intro q hq
    induction hq with
    | refl => exact ⟨hbody, hstart⟩
    | tail hreach hbelow ih =>
      exact rule.below hbelow (fun e s hmore => hd e s (hreach.trans hmore)) ih.1 ih.2
  exact hrun (point, s) h

end

end VisitRule

end Napitia.Resourceck

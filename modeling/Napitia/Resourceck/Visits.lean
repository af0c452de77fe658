import Mathlib.Logic.Relation
import Napitia.Resourceck.WalkRule

/-!
# The points a walk comes to

A point of the walk is a part of the function body together with what the walk carries
down to it. One point is directly below another when walking the one begins with
walking the other somewhere on the way, and then in the state reached by then. What the
checker guarantees of an accepted function it guarantees at every point its walk comes to.
-/
namespace Napitia.Resourceck
open Nir Lower Stateful
open Hir (ExprId HirHandleArmKind)
open Hir.Body

/-- The state a computation leaves. -/
def after {α : Type} (x : FlowM α) (s : FlowState) : FlowState := (x.run s).2

inductive Point where
  | expr (e : HirExpr) (kind : ConsumeKind)
  | args (callee : HirExpr) (index : ℕ) (rest : List HirExpr)
  | fields (rest : List HirFieldInit)
  | elseBranch (entry : PlaceStates) (kind : ConsumeKind) (branch : Option HirElse)
  | armBody (constructId : ExprId) (kind : ConsumeKind) (body : HirMatchArmBody)
  | matchArms (constructId : ExprId) (entry : PlaceStates) (kind : ConsumeKind)
      (rest : List HirMatchArm)
  | handleArms (constructId : ExprId) (entry : PlaceStates) (kind : ConsumeKind)
      (rest : List HirHandleArm)
  | block (b : HirBlock) (kind : ConsumeKind)
  | stmts (rest : List HirStmt)
  | stmt (st : HirStmt)

section
variable (C : FlowContext)

/-- The state the walk of a point leaves. -/
def Point.leave : Point → FlowState → FlowState
  | .expr e kind => after (checkExprCtxInner C e kind)
  | .args callee index rest => after (checkArgs C callee index rest)
  | .fields rest => after (checkFields C rest)
  | .elseBranch entry kind branch => after (checkElse C entry kind branch)
  | .armBody constructId kind body => after (checkArmBody C constructId kind body)
  | .matchArms constructId entry kind rest => after (checkMatchArms C constructId entry kind rest)
  | .handleArms constructId entry kind rest =>
    after (checkHandleArms C constructId entry kind rest)
  | .block b kind => after (checkBlockCtxInner C b kind)
  | .stmts rest => after (checkStmts C rest)
  | .stmt st => after (checkStmt C st)

/-- A scope for deferred calls just opened. -/
def openScope (s : FlowState) : FlowState := { s with deferScopes := [] :: s.deferScopes }

/-- The value of a binding, an argument or an assignment, noted as consumed or observed. -/
def noted (id : ExprId) (info : ConsumeInfo) : FlowState → FlowState :=
  after (whenever (C.isAffineExpr id) (recordConsume id info))

/-- The kind the branches of a construct are checked in. -/
def branchKind (id : ExprId) (kind : ConsumeKind) (s : FlowState) : ConsumeKind :=
  ((checkCompoundOrigin C id kind).run s).1

/-- Where the branches of a construct start. -/
def branchStart (id : ExprId) (kind : ConsumeKind) : FlowState → FlowState :=
  after (checkCompoundOrigin C id kind)

/-- Where the body of an arm starts. -/
def armStart (entry : PlaceStates) (locals : List LocalId) (s : FlowState) : FlowState :=
  after (locals.forM (bindLocal C)) { s with states := entry }

def scrutineeKind (scrutinee : HirExpr) : ConsumeKind :=
  if C.isAffineExpr scrutinee.id then .other else .read

def argKind (callee : HirExpr) (index : ℕ) : ConsumeKind :=
  if takes C callee index then .other else .read

def argInfo (callee : HirExpr) (index : ℕ) : ConsumeInfo :=
  if takes C callee index then .transfer else .observe

/-- Where the body of an `observe` of a place starts. -/
def observeStart (id : ObservationId) (place : LocalPlace) (aliased : LocalId)
    (lexicalScope : ExprId) (s : FlowState) : FlowState :=
  let read := after (checkPlaceRead place) s
  match C.placeTy place with
  | none => read
  | some ty =>
    match C.placeStatus read place with
    | .available | .dropScheduled | .observed _ =>
      after (beginObservation id place aliased ty lexicalScope) read
    | .partiallyMoved => after (diagnose Codes.partialParentUsedAsWhole) read
    | .moved | .dropped | .error => read

/-- One point and the state it is come to in, and a point directly below it with its own. -/
inductive Below : Point × FlowState → Point × FlowState → Prop
  | unary {id op operand kind s} :
    Below (.expr (.unary id op operand) kind, s) (.expr operand .read, s)
  | cast {id operand kind s} : Below (.expr (.cast id operand) kind, s) (.expr operand .read, s)
  | tryExpr {id operand kind s} :
    Below (.expr (.tryExpr id operand) kind, s) (.expr operand .read, s)
  | left {id op left right kind s} :
    Below (.expr (.binary id op left right) kind, s) (.expr left .read, s)
  | right {id op left right kind s} :
    Below (.expr (.binary id op left right) kind, s)
      (.expr right .read, after (checkExprCtxInner C left .read) s)
  | assignValue {id target op value kind s} :
    Below (.expr (.assign id target op value) kind, s)
      (.expr value .other, noted C value.id .transfer s)
  | assignTarget {id target op value kind s} (h : ownedTarget C target = none) :
    Below (.expr (.assign id target op value) kind, s)
      (.expr target .read,
        after (exprCtx C value .other (checkExprCtxInner C value .other))
          (noted C value.id .transfer s))
  | callee {id callee args kind s} :
    Below (.expr (.call id callee args) kind, s) (.expr callee .read, s)
  | callArgs {id callee args kind s} (h : malformedCallee C callee args = false) :
    Below (.expr (.call id callee args) kind, s)
      (.args callee 0 args,
        after (rejectMixedObserveTakeAliases C callee args)
          (after (checkExprCtxInner C callee .read) s))
  | fieldBase {id base kind s} (h : C.resolvePlace (.field id base) = none) :
    Below (.expr (.field id base) kind, s) (.expr base .read, s)
  | condition {id condition thenBranch elseBranch kind s} :
    Below (.expr (.ifExpr id condition thenBranch elseBranch) kind, s) (.expr condition .read, s)
  | thenBranch {id condition thenBranch elseBranch kind s s'}
    (h : s' = after (checkExprCtxInner C condition .read) s) :
    Below (.expr (.ifExpr id condition thenBranch elseBranch) kind, s)
      (.block thenBranch (branchKind C id kind s'), openScope (branchStart C id kind s'))
  | elseBranch {id condition thenBranch elseBranch kind s s' kind' t}
    (h : s' = after (checkExprCtxInner C condition .read) s)
    (hkind : kind' = branchKind C id kind s')
    (ht : t = after (blockCtx C thenBranch.id (checkBlockCtxInner C thenBranch kind'))
      (branchStart C id kind s')) :
    Below (.expr (.ifExpr id condition thenBranch elseBranch) kind, s)
      (.elseBranch (branchStart C id kind s').states kind' elseBranch,
        { t with states := (branchStart C id kind s').states })
  | scrutinee {id scrutinee arms kind s} :
    Below (.expr (.matchExpr id scrutinee arms) kind, s)
      (.expr scrutinee (scrutineeKind C scrutinee), s)
  | matchArms {id scrutinee arms kind s s'}
    (h : s' = after (exprCtx C scrutinee (scrutineeKind C scrutinee)
      (checkExprCtxInner C scrutinee (scrutineeKind C scrutinee))) s) :
    Below (.expr (.matchExpr id scrutinee arms) kind, s)
      (.matchArms id (branchStart C id kind s').states (branchKind C id kind s') arms,
        branchStart C id kind s')
  | block {b kind s} : Below (.expr (.block b) kind, s) (.block b kind, openScope s)
  | returned {id value kind s} :
    Below (.expr (.returnExpr id (some value)) kind, s) (.expr value .returned, s)
  | broken {id value kind s} :
    Below (.expr (.breakExpr id (some value)) kind, s) (.expr value .other, s)
  | record {id item fields kind s} :
    Below (.expr (.recordLiteral id item fields) kind, s) (.fields fields, s)
  | raised {id operand kind s} :
    Below (.expr (.raise id operand) kind, s) (.expr operand .other, s)
  | handled {id operand arms kind s} :
    Below (.expr (.handle id operand arms) kind, s) (.expr operand .read, s)
  | handleArms {id operand arms kind s s'}
    (h : s' = after (checkExprCtxInner C operand .read) s) :
    Below (.expr (.handle id operand arms) kind, s)
      (.handleArms id (branchStart C id kind s').states (branchKind C id kind s') arms,
        branchStart C id kind s')
  | arg {callee index arg rest s} :
    Below (.args callee index (arg :: rest), s)
      (.expr arg (argKind C callee index), noted C arg.id (argInfo C callee index) s)
  | nextArg {callee index arg rest s} :
    Below (.args callee index (arg :: rest), s)
      (.args callee (index + 1) rest,
        after (whenever (!takes C callee index) (rejectLeakedTemporary C arg))
          (after (exprCtx C arg (argKind C callee index)
              (checkExprCtxInner C arg (argKind C callee index)))
            (noted C arg.id (argInfo C callee index) s)))
  | field {name value rest s} :
    Below (.fields (.mk name value :: rest), s) (.expr value .other, s)
  | nextField {name value rest s} :
    Below (.fields (.mk name value :: rest), s)
      (.fields rest, after (exprCtx C value .other (checkExprCtxInner C value .other)) s)
  | elseBlock {entry kind b s} :
    Below (.elseBranch entry kind (some (.block b)), s) (.block b kind, openScope s)
  | elseIf {entry kind e s} :
    Below (.elseBranch entry kind (some (.ifExpr e)), s) (.expr e kind, s)
  | armExpr {constructId kind e s} :
    Below (.armBody constructId kind (.expr e), s) (.expr e kind, s)
  | armBlock {constructId kind b s} :
    Below (.armBody constructId kind (.block b), s) (.block b kind, openScope s)
  | matchArm {constructId entry kind pattern body rest s} :
    Below (.matchArms constructId entry kind (.mk pattern body :: rest), s)
      (.armBody constructId kind body, armStart C entry (patternLocals pattern) s)
  | nextMatchArm {constructId entry kind pattern body rest s} :
    Below (.matchArms constructId entry kind (.mk pattern body :: rest), s)
      (.matchArms constructId entry kind rest,
        after (armCtx C entry (patternLocals pattern) (checkArmBody C constructId kind body)) s)
  | handleArm {constructId entry kind armKind body rest s} :
    Below (.handleArms constructId entry kind (.mk armKind body :: rest), s)
      (.armBody constructId kind body, armStart C entry (handleLocals armKind) s)
  | nextHandleArm {constructId entry kind armKind body rest s} :
    Below (.handleArms constructId entry kind (.mk armKind body :: rest), s)
      (.handleArms constructId entry kind rest,
        after (armCtx C entry (handleLocals armKind) (checkArmBody C constructId kind body)) s)
  | blockStmts {id statements tail kind s} :
    Below (.block (.mk id statements tail) kind, s) (.stmts statements, s)
  | blockTail {id statements tail kind s} (h : ((checkStmts C statements).run s).1 = true) :
    Below (.block (.mk id statements (some tail)) kind, s)
      (.expr tail kind, after (checkStmts C statements) s)
  | firstStmt {st rest s} : Below (.stmts (st :: rest), s) (.stmt st, s)
  | nextStmt {st rest s} (h : ((checkStmt C st).run s).1 = false) :
    Below (.stmts (st :: rest), s) (.stmts rest, after (checkStmt C st) s)
  | bound {binding value s} :
    Below (.stmt (.binding binding value), s) (.expr value .other, noted C value.id .transfer s)
  | stmtExpr {e s} : Below (.stmt (.expr e), s) (.expr e .read, s)
  | deferred {e s} : Below (.stmt (.defer e), s) (.expr e .read, s)
  | dropped {e s} (hlocal : droppedLocal e = none) (hfield : droppedField C e = none) :
    Below (.stmt (.drop e), s) (.expr e .other, s)
  | whileCondition {condition body s} :
    Below (.stmt (.whileLoop condition body), s) (.expr condition .read, after pushLoop s)
  | whileBody {condition body s} :
    Below (.stmt (.whileLoop condition body), s)
      (.block body .read,
        openScope (after (checkExprCtxInner C condition .read) (after pushLoop s)))
  | loopBody {body s} :
    Below (.stmt (.loop body), s) (.block body .read, openScope (after pushLoop s))
  | observeSource {id source aliased body s} (h : observedSource C source = none) :
    Below (.stmt (.observe id source aliased body), s) (.expr source .read, s)
  | observeRead {id source aliased body s} (h : observedSource C source = none) :
    Below (.stmt (.observe id source aliased body), s)
      (.block body .read, openScope (after (checkExprCtxInner C source .read) s))
  | observeBody {id source aliased body place s} (h : observedSource C source = some place) :
    Below (.stmt (.observe id source aliased body), s)
      (.block body .read, openScope (observeStart C id place aliased body.id s))

/-- The state a function's body is walked from. -/
def bodyStart (f : HirFunction) : FlowState := openScope (after (f.params.forM (checkParam C)) {})

/-- The walk of the function comes to this point in this state. -/
def Visits (f : HirFunction) (point : Point) (s : FlowState) : Prop :=
  Relation.ReflTransGen (Below C) (.block f.body .returned, bodyStart C f) (point, s)

/-- The checker reports nothing about the function. -/
def Accepts (f : HirFunction) : Prop := (after (checkFunction C f) {}).diagnostics = []

instance (f : HirFunction) : Decidable (Accepts C f) :=
  inferInstanceAs (Decidable (_ = _))

section
variable {α β : Type} {s t u : FlowState}

theorem Grows.refl (s : FlowState) : Grows s s := Std.Refl.refl s

theorem Grows.trans (h : Grows s t) (h' : Grows t u) : Grows s u := IsTrans.trans _ _ _ h h'

theorem after_bind (x : FlowM α) (f : α → FlowM β) (s : FlowState) :
    after (x >>= f) s = after (f (x.run s).1) (after x s) := rfl

theorem after_get (s : FlowState) : after get s = s := rfl

theorem after_pure (a : α) (s : FlowState) : after (pure a) s = s := rfl

theorem after_ite {p : Prop} [Decidable p] (x y : FlowM α) (s : FlowState) :
    after (if p then x else y) s = if p then after x s else after y s := by
  split <;> rfl

theorem Keeps.grows {x : FlowM α} (h : Keeps x) (s : FlowState) : Grows s (after x s) := h s

theorem Quiets.grows {x : FlowM α} (h : Quiets x) (s : FlowState) : Grows s (after x s) :=
  h.keeps s

end

variable {C}

/-! ### Nothing is taken back -/

theorem grows_rule (C : FlowContext) :
    WalkRule C Grows (fun _ => True) (fun _ => True) fun _ => True where
  diagnosed code := (quiet_diagnose code).keeps.safe
  consumed id info := (quiet_recordConsume id info).keeps.safe
  exited id marker := (keeps_recordExit C id marker).safe
  observationsEnded id marker := (quiet_recordObservationExit id marker).keeps.safe
  states _ := trivial
  swap hs _ := ⟨hs.diagnostics, hs.cleanupEdges⟩
  localUse kind _ := (quiet_checkLocalUse C _ kind).keeps.safe
  placeMove _ _ _ := (quiet_applyPlaceMove _).keeps.safe
  placeRead place := (quiet_checkPlaceRead place).keeps.safe
  reassigned _ _ := (quiet_checkReassignment _).keeps.safe
  localDrop _ _ := (keeps_checkLocalDrop C _ _).safe
  fieldDrop _ _ := (keeps_checkFieldDrop C _ _).safe
  bound binding := (keeps_bindLocal C binding).safe
  deferred _ := (keeps_afterDefer C _).safe
  scope {α J x} hx := by
    intro i s hs
    obtain ⟨hinner, hresult⟩ := hx i (openScope s) ⟨hs.diagnostics, hs.cleanupEdges⟩
    exact ⟨⟨hinner.diagnostics, hinner.cleanupEdges⟩, hresult⟩
  blockOf id _ hx := (keeps_blockCtx C id hx.within).safe
  arm locals _ _ hx := by
    intro i s hs
    exact ⟨((keeps_armCtx C _ locals hx.within).safe i s hs).1, trivial⟩
  joined kind _ _ _ _ := (quiet_finishBranches kind _ _).keeps.safe
  broke id := (keeps_leaveLoop C id _).safe
  continued id := (keeps_leaveLoop C id _).safe
  whileLoop hcondition hbody := by
    unfold checkStmt
    refine Within.safe (quiet_pushLoop.keeps.bind fun _ => hcondition.within.bind fun _ => ?_)
    exact Within.get.bind fun _ => hbody.within.bind fun _ =>
      (quiet_popLoop C _ _ _ _).keeps.bind fun _ => .pure _
  loop hbody := by
    unfold checkStmt
    refine Within.safe (quiet_pushLoop.keeps.bind fun _ => hbody.within.bind fun _ => ?_)
    exact (quiet_popLoop C _ _ _ _).keeps.bind fun _ => Within.get.bind fun _ => .pure _
  observed _ _ hx := (keeps_observePlace C _ _ _ _ hx.within).safe

section
variable (C)

theorem keeps_checkExprCtxInner (e : HirExpr) (kind : ConsumeKind) :
    Keeps (checkExprCtxInner C e kind) :=
  ((grows_rule C).expr e kind (e.everywhere (fun _ => trivial) fun _ => trivial)).within

theorem keeps_checkArgs (callee : HirExpr) (index : ℕ) (args : List HirExpr) :
    Keeps (checkArgs C callee index args) :=
  ((grows_rule C).argList callee index args
    (argsEverywhere (fun _ => trivial) (fun _ => trivial) args)).within

theorem keeps_checkFields (fields : List HirFieldInit) : Keeps (checkFields C fields) :=
  ((grows_rule C).fieldList fields
    (fieldsEverywhere (fun _ => trivial) (fun _ => trivial) fields)).within

theorem keeps_checkElse (entry : PlaceStates) (kind : ConsumeKind) (branch : Option HirElse) :
    Keeps (checkElse C entry kind branch) :=
  ((grows_rule C).elseBranchOf entry kind branch trivial
    (elseEverywhere (fun _ => trivial) (fun _ => trivial) branch)).safe.within

theorem keeps_checkMatchArms (constructId : ExprId) (entry : PlaceStates) (kind : ConsumeKind)
    (arms : List HirMatchArm) : Keeps (checkMatchArms C constructId entry kind arms) :=
  ((grows_rule C).matchArms constructId entry kind arms trivial
    (matchArmsEverywhere (fun _ => trivial) (fun _ => trivial) arms)).safe.within

theorem keeps_checkHandleArms (constructId : ExprId) (entry : PlaceStates) (kind : ConsumeKind)
    (arms : List HirHandleArm) : Keeps (checkHandleArms C constructId entry kind arms) :=
  ((grows_rule C).handleArms constructId entry kind arms trivial
    (handleArmsEverywhere (fun _ => trivial) (fun _ => trivial) arms)).safe.within

theorem keeps_checkBlockCtxInner (b : HirBlock) (kind : ConsumeKind) :
    Keeps (checkBlockCtxInner C b kind) :=
  ((grows_rule C).block b kind (b.everywhere (fun _ => trivial) fun _ => trivial)).within

theorem keeps_checkStmts (statements : List HirStmt) : Keeps (checkStmts C statements) :=
  ((grows_rule C).stmts statements
    (stmtsEverywhere (fun _ => trivial) (fun _ => trivial) statements)).safe.within

end

theorem grows_exprCtx (C : FlowContext) (expr : HirExpr) (kind : ConsumeKind) (x : FlowM Unit)
    (s : FlowState) : Grows (after x s) (after (exprCtx C expr kind x) s) :=
  (keeps_whenever _ (keeps_recordExit C _ _)).grows _

theorem keeps_exit (id : ExprId) :
    Keeps (recordObservationExit id 0 >>= fun _ => recordExit C id 0) :=
  (quiet_recordObservationExit _ _).keeps.bind fun _ => keeps_recordExit C _ _

theorem grows_deferScope {α : Type} (x : FlowM α) (s : FlowState) :
    Grows (after x (openScope s)) (after (deferScope x) s) := grows_of_eq rfl rfl

theorem grows_blockCtx (id : ExprId) (x : FlowM Unit) (s : FlowState) :
    Grows (after x (openScope s)) (after (blockCtx C id x) s) :=
  (grows_deferScope x s).trans (Keeps.grows ((keeps_whenever _ (keeps_recordExit C _ _)).bind
    fun _ =>
    keeps_truncateCleanup _) _)

theorem grows_armCtx (entry : PlaceStates) (locals : List LocalId)
    (x : FlowM (ExprId × Bool × Bool)) (s : FlowState) :
    Grows (after x (armStart C entry locals s)) (after (armCtx C entry locals x) s) :=
  Keeps.grows ((keeps_whenever _ (keeps_recordExit C _ _)).bind fun _ =>
    (keeps_truncateCleanup _).bind fun _ =>
    Quiets.keeps (.forM quiet_removeLocal)) _

theorem grows_observationBody (body : HirBlock) (x : FlowM Unit) (s : FlowState) :
    Grows (after x (openScope s)) (after (observationBody C body x) s) :=
  (grows_blockCtx _ _ _).trans ((quiet_rejectLeakedTail C body).grows _)

theorem grows_observePlace (id : ObservationId) (place : LocalPlace) (aliased : LocalId)
    (lexicalScope : ExprId) (x : FlowM Unit) (s : FlowState) :
    Grows (after x (observeStart C id place aliased lexicalScope s))
      (after (observePlace C id place aliased lexicalScope x) s) := by
  simp only [observeStart, observePlace, after_bind]
  cases C.placeTy place with
  | none => exact .refl _
  | some ty =>
    simp only [after_bind, run_get, after_get]
    cases C.placeStatus (after (checkPlaceRead place) s) place with
    | available | dropScheduled | observed => exact quiet_endObservation.grows _
    | partiallyMoved | moved | dropped | error => exact .refl _

/-- What is reported or recorded at a point directly below is still so at the end. -/
theorem Below.grows {p q : Point × FlowState} (h : Below C p q) :
    Grows (q.1.leave C q.2) (p.1.leave C p.2) := by
  cases h with
  | unary | cast =>
    simp only [Point.leave, checkExprCtxInner]
    exact .refl _
  | tryExpr =>
    simp only [Point.leave, checkExprCtxInner]
    exact (keeps_exit _).grows _
  | left =>
    simp only [Point.leave, checkExprCtxInner]
    exact (keeps_checkExprCtxInner C _ _).grows _
  | right =>
    simp only [Point.leave, checkExprCtxInner]
    exact .refl _
  | @assignValue id target op value kind s =>
    simp only [Point.leave, checkExprCtxInner, after_bind]
    refine (grows_exprCtx C value .other _ _).trans ?_
    split
    · exact (quiet_checkReassignment _).grows _
    · exact (keeps_checkExprCtxInner C _ _).grows _
  | assignTarget h =>
    simp only [Point.leave, checkExprCtxInner, h]
    exact .refl _
  | callee =>
    simp only [Point.leave, checkExprCtxInner, after_bind, after_ite]
    split
    · exact (quiet_diagnose _).grows _
    · exact ((quiet_rejectMixedObserveTakeAliases C _ _).grows _).trans
        ((keeps_checkArgs C _ _ _).grows _)
  | callArgs h =>
    simp only [Point.leave, checkExprCtxInner, h]
    exact .refl _
  | fieldBase h =>
    simp only [Point.leave, checkExprCtxInner, h]
    exact (quiet_rejectLeakedTemporary C _).grows _
  | condition =>
    simp only [Point.leave, checkExprCtxInner, after_bind]
    exact ((quiet_checkCompoundOrigin C _ _).grows _).trans
      (((keeps_blockCtx C _ (keeps_checkBlockCtxInner C _ _)).grows _).trans
      (((quiet_swapStates _).grows _).trans
      (((keeps_checkElse C _ _ _).grows _).trans ((quiet_finishBranches _ _ _).grows _))))
  | thenBranch h =>
    subst h
    simp only [Point.leave, checkExprCtxInner, after_bind]
    exact (grows_blockCtx _ _ _).trans (((quiet_swapStates _).grows _).trans
      (((keeps_checkElse C _ _ _).grows _).trans ((quiet_finishBranches _ _ _).grows _)))
  | elseBranch h hkind ht =>
    subst h
    subst hkind
    subst ht
    simp only [Point.leave, checkExprCtxInner, after_bind]
    exact (quiet_finishBranches _ _ _).grows _
  | scrutinee =>
    simp only [Point.leave, checkExprCtxInner, after_bind]
    exact (grows_exprCtx C _ _ _ _).trans (((quiet_checkCompoundOrigin C _ _).grows _).trans
      (((keeps_checkMatchArms C _ _ _ _).grows _).trans ((quiet_finishBranches _ _ _).grows _)))
  | matchArms h =>
    subst h
    simp only [Point.leave, checkExprCtxInner, after_bind]
    exact (quiet_finishBranches _ _ _).grows _
  | block =>
    simp only [Point.leave, checkExprCtxInner]
    exact grows_blockCtx _ _ _
  | returned =>
    simp only [Point.leave, checkExprCtxInner, after_bind]
    exact (grows_exprCtx C _ .returned _ _).trans ((keeps_exit _).grows _)
  | broken =>
    simp only [Point.leave, checkExprCtxInner, after_bind]
    exact (grows_exprCtx C _ .other _ _).trans ((keeps_leaveLoop C _ _).grows _)
  | record =>
    simp only [Point.leave, checkExprCtxInner]
    exact .refl _
  | raised =>
    simp only [Point.leave, checkExprCtxInner, after_bind]
    exact (grows_exprCtx C _ .other _ _).trans ((keeps_exit _).grows _)
  | handled =>
    simp only [Point.leave, checkExprCtxInner, after_bind]
    exact ((quiet_checkCompoundOrigin C _ _).grows _).trans
      (((keeps_checkHandleArms C _ _ _ _).grows _).trans ((quiet_finishBranches _ _ _).grows _))
  | handleArms h =>
    subst h
    simp only [Point.leave, checkExprCtxInner, after_bind]
    exact (quiet_finishBranches _ _ _).grows _
  | arg =>
    simp only [Point.leave, checkArgs, after_bind]
    exact (grows_exprCtx C _ _ _ _).trans
      (((keeps_whenever _ (quiet_rejectLeakedTemporary C _).keeps).grows _).trans
        ((keeps_checkArgs C _ _ _).grows _))
  | nextArg =>
    simp only [Point.leave, checkArgs]
    exact .refl _
  | field =>
    simp only [Point.leave, checkFields, after_bind]
    exact (grows_exprCtx C _ .other _ _).trans ((keeps_checkFields C _).grows _)
  | nextField =>
    simp only [Point.leave, checkFields]
    exact .refl _
  | elseBlock =>
    simp only [Point.leave, checkElse, after_bind]
    exact (grows_blockCtx _ _ _).trans ((quiet_swapStates _).grows _)
  | elseIf =>
    simp only [Point.leave, checkElse, after_bind]
    exact grows_exprCtx C _ _ _ _
  | armExpr =>
    simp only [Point.leave, checkArmBody, after_bind]
    exact (grows_exprCtx C _ _ _ _).trans ((keeps_whenever _ (keeps_exit _)).grows _)
  | armBlock =>
    simp only [Point.leave, checkArmBody, after_bind]
    exact grows_deferScope _ _
  | matchArm =>
    simp only [Point.leave, checkMatchArms, after_bind]
    exact (grows_armCtx _ _ _ _).trans ((keeps_checkMatchArms C _ _ _ _).grows _)
  | nextMatchArm =>
    simp only [Point.leave, checkMatchArms]
    exact .refl _
  | handleArm =>
    simp only [Point.leave, checkHandleArms, after_bind]
    exact (grows_armCtx _ _ _ _).trans ((keeps_checkHandleArms C _ _ _ _).grows _)
  | nextHandleArm =>
    simp only [Point.leave, checkHandleArms]
    exact .refl _
  | @blockStmts id statements tail kind s =>
    cases tail with
    | none =>
      simp only [Point.leave, checkBlockCtxInner, after_bind, after_pure, ite_self]
      exact .refl _
    | some tail =>
      simp only [Point.leave, checkBlockCtxInner, after_bind, after_ite]
      split
      · exact ((keeps_exprCtx C _ _ (keeps_checkExprCtxInner C _ _)).grows _).trans
          ((keeps_whenever _ (keeps_exit _)).grows _)
      · exact .refl _
  | blockTail h =>
    simp only [Point.leave, checkBlockCtxInner, after_bind, h, if_true]
    exact (grows_exprCtx C _ _ _ _).trans ((keeps_whenever _ (keeps_exit _)).grows _)
  | firstStmt =>
    simp only [Point.leave, checkStmts, after_bind, after_ite]
    split
    · exact .refl _
    · exact (keeps_checkStmts C _).grows _
  | nextStmt h =>
    simp only [Point.leave, checkStmts, after_bind, h]
    exact .refl _
  | bound =>
    simp only [Point.leave, checkStmt, after_bind]
    exact (grows_exprCtx C _ .other _ _).trans ((keeps_bindLocal C _).grows _)
  | stmtExpr =>
    simp only [Point.leave, checkStmt, after_bind]
    exact (quiet_rejectLeakedTemporary C _).grows _
  | deferred =>
    simp only [Point.leave, checkStmt, after_bind]
    exact (keeps_afterDefer C _).grows _
  | @dropped e s hlocal hfield =>
    simp only [Point.leave, checkStmt, hlocal, hfield]
    exact grows_exprCtx C e .other _ _
  | whileCondition =>
    simp only [Point.leave, checkStmt, after_bind, after_get]
    exact ((keeps_blockCtx C _ (keeps_checkBlockCtxInner C _ _)).grows _).trans
      ((quiet_popLoop C _ _ _ _).grows _)
  | whileBody =>
    simp only [Point.leave, checkStmt, after_bind, after_get]
    exact (grows_blockCtx _ _ _).trans ((quiet_popLoop C _ _ _ _).grows _)
  | loopBody =>
    simp only [Point.leave, checkStmt, after_bind]
    exact (grows_blockCtx _ _ _).trans ((quiet_popLoop C _ _ _ _).grows _)
  | observeSource h =>
    unfold observedSource at h
    simp only [Point.leave, checkStmt, h, after_bind]
    exact (keeps_observationBody C _ (keeps_checkBlockCtxInner C _ _)).grows _
  | observeRead h =>
    unfold observedSource at h
    simp only [Point.leave, checkStmt, h, after_bind]
    exact grows_observationBody _ _ _
  | observeBody h =>
    unfold observedSource at h
    simp only [Point.leave, checkStmt, h, after_bind]
    exact (grows_observationBody _ _ _).trans (grows_observePlace _ _ _ _ _ _)

/-- At every point an accepted function's walk comes to, nothing is reported from its
beginning to its end. -/
theorem Visits.silent {f : HirFunction} {point : Point} {s : FlowState}
    (hvisits : Visits C f point s) (haccepts : Accepts C f) :
    (point.leave C s).diagnostics = [] := by
  have hgrows : Grows (point.leave C s) (Point.leave C (.block f.body .returned) (bodyStart C f)) := by
    have hchain : ∀ q, Relation.ReflTransGen (Below C) (.block f.body .returned, bodyStart C f) q →
        Grows (q.1.leave C q.2) (Point.leave C (.block f.body .returned) (bodyStart C f)) := by
      intro q hq
      induction hq with
      | refl => exact .refl _
      | tail _ hstep ih => exact hstep.grows.trans ih
    exact hchain _ hvisits
  have hend : Grows (Point.leave C (.block f.body .returned) (bodyStart C f))
      (after (checkFunction C f) {}) :=
    (grows_deferScope _ _).trans ((keeps_whenever _ (keeps_recordExit C _ _)).grows _)
  have hprefix := (hgrows.trans hend).diagnostics
  rw [haccepts] at hprefix
  exact List.prefix_nil.mp hprefix

end

end Napitia.Resourceck

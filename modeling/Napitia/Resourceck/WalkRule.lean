import Napitia.Hir.Everywhere
import Napitia.Resourceck.Growth

/-!
# A rule for the walk

A family of invariants of the checker's state, and what is known of the states a branch
may start from and end in. Where every operation of the walk maintains the invariants, so
does the walk of every piece of a body; an operation may ask something of the expression
or the statement it belongs to.
-/
namespace Napitia.Resourceck
open Nir Lower Stateful
open Hir (ExprId)
open Hir.Body

/-- Whichever of the invariants holds of the one state holds of the other. -/
def Leads {ι : Type} (I : ι → FlowState → Prop) (s t : FlowState) : Prop := ∀ i, I i s → I i t

section
variable {ι : Type} {I : ι → FlowState → Prop} {s t u : FlowState}

theorem Leads.refl (s : FlowState) : Leads I s s := fun _ h => h

theorem Leads.trans (h : Leads I s t) (h' : Leads I t u) : Leads I s u := fun i hi => h' i (h i hi)

instance : Std.Refl (Leads I) := ⟨Leads.refl⟩

instance : IsTrans FlowState (Leads I) := ⟨fun _ _ _ => Leads.trans⟩

theorem Leads.safe {α : Type} {x : FlowM α} (h : Within (Leads I) x) : Safe I x :=
  .intro fun i s hs => h s i hs

theorem Leads.of_safe {α : Type} {x : FlowM α} (h : Safe I x) : Within (Leads I) x :=
  fun s i hs => (h i s hs).1

end

/-- The place an `observe` holds on to. -/
def observedSource (C : FlowContext) (source : HirExpr) : Option LocalPlace :=
  if C.isAffineExpr source.id then C.resolvePlace source else none

/-- The operations on places maintain the invariants `I`; the states of a branch satisfy `G`,
and the parts of the body `P` and `Q`. -/
structure PlaceRule {ι : Type} (C : FlowContext) (I : ι → FlowState → Prop) (G : PlaceStates → Prop)
    (P : HirExpr → Prop) (Q : HirStmt → Prop) : Prop where
  states : ∀ {i s}, I i s → G s.states
  swap : ∀ {i s entry}, I i s → G entry → I i { s with states := entry }
  localUse : ∀ {id binding} kind, P (.localVar id binding) → Safe I (checkLocalUse C binding kind)
  placeMove : ∀ {id base place}, P (.field id base) → C.isAffineExpr id = true →
    C.resolvePlace (.field id base) = some place → Safe I (applyPlaceMove place)
  placeRead : ∀ place, Safe I (checkPlaceRead place)
  reassigned : ∀ {id target op value place}, P (.assign id target op value) →
    ownedTarget C target = some place → Safe I (checkReassignment place)
  localDrop : ∀ {e binding}, Q (.drop e) → droppedLocal e = some binding →
    Safe I (checkLocalDrop C binding e.id)
  fieldDrop : ∀ {e place}, Q (.drop e) → droppedField C e = some place →
    Safe I (checkFieldDrop C place e.id)
  bound : ∀ binding, Safe I (bindLocal C binding)
  joined : ∀ kind {entry branches}, G entry → (∀ branch ∈ branches, G branch.1) →
    Safe I (finishBranches kind entry branches)
  broke : ∀ id, Safe I (leaveLoop C id fun state frame =>
    { frame with breakStates := frame.breakStates ++ [state] })
  continued : ∀ id, Safe I (leaveLoop C id fun state frame =>
    { frame with continueStates := frame.continueStates ++ [state] })

/-- So do the statements that open a scope, where their parts do. -/
structure ScopeRule {ι : Type} (C : FlowContext) (I : ι → FlowState → Prop) (G : PlaceStates → Prop)
    (P : HirExpr → Prop) (Q : HirStmt → Prop) : Prop extends PlaceRule C I G P Q where
  deferred : ∀ {e}, Q (.defer e) → Safe I (afterDefer C e)
  scope : ∀ {α : Type} {J : α → Prop} {x : FlowM α}, Maintains I J x → Maintains I J (deferScope x)
  whileLoop : ∀ {condition body}, Safe I (checkExprCtxInner C condition .read) →
    Safe I (blockCtx C body.id (checkBlockCtxInner C body .read)) →
    Safe I (checkStmt C (.whileLoop condition body))
  loop : ∀ {body}, Safe I (blockCtx C body.id (checkBlockCtxInner C body .read)) →
    Safe I (checkStmt C (.loop body))
  observed : ∀ {id source aliased body place}, Q (.observe id source aliased body) →
    observedSource C source = some place →
    Safe I (observationBody C body (checkBlockCtxInner C body .read)) →
    Safe I (observePlace C id place aliased body.id
      (observationBody C body (checkBlockCtxInner C body .read)))

/-- And what reports or records for an id, so that the whole walk does. -/
structure WalkRule {ι : Type} (C : FlowContext) (I : ι → FlowState → Prop) (G : PlaceStates → Prop)
    (P : HirExpr → Prop) (Q : HirStmt → Prop) : Prop extends ScopeRule C I G P Q where
  diagnosed : ∀ code, Safe I (diagnose code)
  consumed : ∀ id info, Safe I (recordConsume id info)
  exited : ∀ id marker, Safe I (recordExit C id marker)
  observationsEnded : ∀ id marker, Safe I (recordObservationExit id marker)
  blockOf : ∀ id {x : FlowM Unit}, Safe I x → Safe I (blockCtx C id x)
  arm : ∀ {entry} locals {x : FlowM (ExprId × Bool × Bool)}, G entry → Safe I x →
    Maintains I (fun branch => G branch.1) (armCtx C entry locals x)

theorem safe_whenever {ι : Type} {I : ι → FlowState → Prop} {x : FlowM Unit} (c : Bool)
    (hx : Safe I x) : Safe I (whenever c x) :=
  .ite hx (Safe.pure _)

namespace WalkRule
variable {ι : Type} {C : FlowContext} {I : ι → FlowState → Prop} {G : PlaceStates → Prop}
  {P : HirExpr → Prop} {Q : HirStmt → Prop} {α : Type} {J : α → Prop}

section
variable (rule : WalkRule C I G P Q)
include rule

theorem swapped {entry : PlaceStates} (h : G entry) : Maintains I G (swapStates entry) :=
  fun _ _ hs => ⟨rule.swap hs h, rule.states hs⟩

theorem leaked (e : HirExpr) : Safe I (rejectLeakedTemporary C e) :=
  Leads.safe (within_rejectLeakedTemporary C (fun code => .of_safe (rule.diagnosed code)) e)

theorem leakedTail (b : HirBlock) : Safe I (rejectLeakedTail C b) :=
  Leads.safe (within_rejectLeakedTail C (fun code => .of_safe (rule.diagnosed code)) b)

theorem aliases (callee : HirExpr) (args : List HirExpr) :
    Safe I (rejectMixedObserveTakeAliases C callee args) :=
  .ite (rule.diagnosed _) (.ite (rule.diagnosed _) (Safe.pure _))

theorem compoundOrigin (id : ExprId) (kind : ConsumeKind) : Safe I (checkCompoundOrigin C id kind) :=
  .ite (Safe.bind (rule.diagnosed _) fun _ => Safe.pure _) (Safe.pure _)

theorem exprCtx {x : FlowM Unit} (expr : HirExpr) (kind : ConsumeKind) (hx : Safe I x) :
    Safe I (exprCtx C expr kind x) :=
  hx.bind fun _ => safe_whenever _ (rule.exited _ _)

theorem exit (id : ExprId) :
    Safe I (recordObservationExit id 0 >>= fun _ => recordExit C id 0) :=
  (rule.observationsEnded id 0).bind fun _ => rule.exited id 0

theorem observationBody {x : FlowM Unit} (body : HirBlock) (hx : Safe I x) :
    Safe I (observationBody C body x) :=
  (rule.blockOf _ hx).bind fun _ => rule.leakedTail body

end

section
variable (rule : WalkRule C I G P Q)
include rule

set_option linter.unusedSectionVars false

mutual

theorem expr : ∀ e kind, e.Everywhere P Q → Safe I (checkExprCtxInner C e kind)
  | .int .., _, _ | .float .., _, _ | .str .., _, _ | .char .., _, _ | .bool .., _, _
  | .function .., _, _ | .caseRef .., _, _ | .protocolMethodRef .., _, _ | .error .., _, _ => by
    unfold checkExprCtxInner
    exact Safe.pure _
  | .localVar id binding, kind, h => by
    unfold checkExprCtxInner
    unfold HirExpr.Everywhere at h
    exact rule.localUse kind h
  | .unary _ _ operand, _, h | .cast _ operand, _, h => by
    unfold checkExprCtxInner
    unfold HirExpr.Everywhere at h
    exact expr operand .read h.2
  | .binary _ _ left right, _, h => by
    unfold checkExprCtxInner
    unfold HirExpr.Everywhere at h
    exact (expr left .read h.2.1).bind fun _ => expr right .read h.2.2
  | .assign id target op value, _, h => by
    unfold checkExprCtxInner
    unfold HirExpr.Everywhere at h
    refine Safe.bind (safe_whenever _ (rule.consumed _ _)) fun _ => ?_
    refine (rule.exprCtx _ _ (expr value .other h.2.2)).bind fun _ => ?_
    split
    · rename_i place howned
      exact rule.reassigned h.1 howned
    · exact expr target .read h.2.1
  | .call _ callee args, _, h => by
    unfold checkExprCtxInner
    unfold HirExpr.Everywhere at h
    refine (expr callee .read h.2.1).bind fun _ => .ite (rule.diagnosed _) ?_
    exact Safe.bind (rule.aliases callee args) fun _ =>
      argList callee 0 args h.2.2
  | .field id base, kind, h => by
    unfold checkExprCtxInner
    unfold HirExpr.Everywhere at h
    split
    · rename_i place hplace
      split
      · rename_i hmoves
        rw [Bool.and_eq_true] at hmoves
        exact (rule.placeMove h.1 hmoves.2 hplace).bind fun _ => rule.consumed _ _
      · exact rule.placeRead place
    · exact (expr base .read h.2).bind fun _ =>
        rule.leaked base
  | .tryExpr id operand, _, h => by
    unfold checkExprCtxInner
    unfold HirExpr.Everywhere at h
    exact (expr operand .read h.2).bind fun _ => rule.exit id
  | .ifExpr id condition thenBranch elseBranch, kind, h => by
    unfold checkExprCtxInner
    unfold HirExpr.Everywhere at h
    refine (expr condition .read h.2.1).bind fun _ => ?_
    refine Safe.bind (rule.compoundOrigin _ _) fun kind => ?_
    refine Maintains.get.bind fun s hs => ?_
    obtain ⟨i, hi⟩ := hs
    have hentry := rule.states hi
    refine (rule.blockOf _ (block thenBranch kind h.2.2.1)).bind fun _ => ?_
    refine (rule.swapped hentry).bind fun thenExit hthen => ?_
    refine (elseBranchOf _ kind elseBranch hentry h.2.2.2).bind fun elseExit helse => ?_
    exact rule.joined kind hentry (List.forall_mem_cons.mpr ⟨hthen, List.forall_mem_singleton.mpr helse⟩)
  | .matchExpr id scrutinee arms, kind, h => by
    unfold checkExprCtxInner
    unfold HirExpr.Everywhere at h
    refine Safe.bind (rule.exprCtx _ _ (expr scrutinee _ h.2.1)) fun _ => ?_
    refine Safe.bind (rule.compoundOrigin _ _) fun kind => ?_
    refine Maintains.get.bind fun s hs => ?_
    obtain ⟨i, hi⟩ := hs
    have hentry := rule.states hi
    exact (matchArms id _ kind arms hentry h.2.2).bind fun _ hbranches =>
      rule.joined kind hentry hbranches
  | .block b, kind, h => by
    unfold checkExprCtxInner
    unfold HirExpr.Everywhere at h
    exact rule.blockOf _ (block b kind h.2)
  | .returnExpr id none, _, _ => by
    unfold checkExprCtxInner
    exact rule.exit id
  | .returnExpr id (some value), _, h => by
    unfold checkExprCtxInner
    unfold HirExpr.Everywhere ValueEverywhere at h
    exact (rule.exprCtx _ _ (expr value .returned h.2)).bind fun _ => rule.exit id
  | .breakExpr id none, _, _ => by
    unfold checkExprCtxInner
    exact rule.broke id
  | .breakExpr id (some value), _, h => by
    unfold checkExprCtxInner
    unfold HirExpr.Everywhere ValueEverywhere at h
    exact (rule.exprCtx _ _ (expr value .other h.2)).bind fun _ => rule.broke id
  | .continueExpr id, _, _ => by
    unfold checkExprCtxInner
    exact rule.continued id
  | .recordLiteral _ _ fields, _, h => by
    unfold checkExprCtxInner
    unfold HirExpr.Everywhere at h
    exact fieldList fields h.2
  | .raise id operand, _, h => by
    unfold checkExprCtxInner
    unfold HirExpr.Everywhere at h
    exact (rule.exprCtx _ _ (expr operand .other h.2)).bind fun _ => rule.exit id
  | .handle id operand arms, kind, h => by
    unfold checkExprCtxInner
    unfold HirExpr.Everywhere at h
    refine (expr operand .read h.2.1).bind fun _ => ?_
    refine Safe.bind (rule.compoundOrigin _ _) fun kind => ?_
    refine Maintains.get.bind fun s hs => ?_
    obtain ⟨i, hi⟩ := hs
    have hentry := rule.states hi
    exact (handleArms id _ kind arms hentry h.2.2).bind fun _ hbranches =>
      rule.joined kind hentry hbranches

theorem argList (callee : HirExpr) : ∀ index args, ArgsEverywhere P Q args →
    Safe I (checkArgs C callee index args)
  | _, [], _ => by
    unfold checkArgs
    exact Safe.pure _
  | index, arg :: rest, h => by
    unfold checkArgs
    unfold ArgsEverywhere at h
    refine Safe.bind (safe_whenever _ (rule.consumed _ _)) fun _ => ?_
    refine (rule.exprCtx _ _ (expr arg _ h.1)).bind fun _ => ?_
    refine Safe.bind (safe_whenever _ (rule.leaked arg))
      fun _ => ?_
    exact argList callee (index + 1) rest h.2

theorem fieldList : ∀ fields, FieldsEverywhere P Q fields → Safe I (checkFields C fields)
  | [], _ => by
    unfold checkFields
    exact Safe.pure _
  | .mk _ value :: rest, h => by
    unfold checkFields
    unfold FieldsEverywhere at h
    exact (rule.exprCtx _ _ (expr value .other h.1)).bind fun _ => fieldList rest h.2

theorem elseBranchOf (entry : PlaceStates) (kind : ConsumeKind) : ∀ branch, G entry →
    ElseEverywhere P Q branch → Maintains I (fun exit => G exit.1) (checkElse C entry kind branch)
  | none, hentry, _ => by
    unfold checkElse
    exact .pure hentry
  | some (.block b), hentry, h => by
    unfold checkElse
    unfold ElseEverywhere at h
    refine (rule.blockOf _ (block b kind h)).bind fun _ => ?_
    exact (rule.swapped hentry).bind fun _ hexit => .pure hexit
  | some (.ifExpr e), _, h => by
    unfold checkElse
    unfold ElseEverywhere at h
    refine (rule.exprCtx _ _ (expr e kind h)).bind fun _ => Maintains.get.bind fun s hs => ?_
    obtain ⟨i, hi⟩ := hs
    exact .pure (rule.states hi)

theorem armBody (constructId : ExprId) (kind : ConsumeKind) : ∀ body : HirMatchArmBody,
    body.Everywhere P Q → Safe I (checkArmBody C constructId kind body)
  | .expr e, h => by
    unfold checkArmBody
    unfold HirMatchArmBody.Everywhere at h
    refine (rule.exprCtx _ _ (expr e kind h)).bind fun _ => ?_
    exact Safe.bind (safe_whenever _ (rule.exit _)) fun _ => Safe.pure _
  | .block b, h => by
    unfold checkArmBody
    unfold HirMatchArmBody.Everywhere at h
    exact Safe.bind (rule.scope (block b kind h)) fun _ => Safe.pure _

theorem matchArms (constructId : ExprId) (entry : PlaceStates) (kind : ConsumeKind) :
    ∀ arms, G entry → MatchArmsEverywhere P Q arms →
      Maintains I (fun branches => ∀ branch ∈ branches, G branch.1)
        (checkMatchArms C constructId entry kind arms)
  | [], _, _ => by
    unfold checkMatchArms
    exact .pure (List.forall_mem_nil _)
  | .mk _ body :: rest, hentry, h => by
    unfold checkMatchArms
    unfold MatchArmsEverywhere at h
    refine (rule.arm _ hentry (armBody constructId kind body h.1)).bind fun branch hbranch => ?_
    refine (matchArms constructId entry kind rest hentry h.2).bind fun branches hbranches => ?_
    exact .pure (List.forall_mem_cons.mpr ⟨hbranch, hbranches⟩)

theorem handleArms (constructId : ExprId) (entry : PlaceStates) (kind : ConsumeKind) :
    ∀ arms, G entry → HandleArmsEverywhere P Q arms →
      Maintains I (fun branches => ∀ branch ∈ branches, G branch.1)
        (checkHandleArms C constructId entry kind arms)
  | [], _, _ => by
    unfold checkHandleArms
    exact .pure (List.forall_mem_nil _)
  | .mk _ body :: rest, hentry, h => by
    unfold checkHandleArms
    unfold HandleArmsEverywhere at h
    refine (rule.arm _ hentry (armBody constructId kind body h.1)).bind fun branch hbranch => ?_
    refine (handleArms constructId entry kind rest hentry h.2).bind fun branches hbranches => ?_
    exact .pure (List.forall_mem_cons.mpr ⟨hbranch, hbranches⟩)

theorem block : ∀ (b : HirBlock) kind, b.Everywhere P Q → Safe I (checkBlockCtxInner C b kind)
  | .mk _ statements none, _, h => by
    unfold checkBlockCtxInner
    unfold HirBlock.Everywhere at h
    exact (stmts statements h.1).bind fun _ => .ite (Safe.pure _) (Safe.pure _)
  | .mk _ statements (some tail), kind, h => by
    unfold checkBlockCtxInner
    unfold HirBlock.Everywhere ValueEverywhere at h
    refine (stmts statements h.1).bind fun _ => .ite ?_ (Safe.pure _)
    refine (rule.exprCtx _ _ (expr tail kind h.2)).bind fun _ => ?_
    exact safe_whenever _ (rule.exit _)

theorem stmts : ∀ statements, StmtsEverywhere P Q statements → Safe I (checkStmts C statements)
  | [], _ => by
    unfold checkStmts
    exact Safe.pure _
  | st :: rest, h => by
    unfold checkStmts
    unfold StmtsEverywhere at h
    exact (stmt st h.1).bind fun _ => .ite (Safe.pure _) (stmts rest h.2)

theorem stmt : ∀ st : HirStmt, st.Everywhere P Q → Safe I (checkStmt C st)
  | .binding binding value, h => by
    unfold checkStmt
    unfold HirStmt.Everywhere at h
    refine Safe.bind (safe_whenever _ (rule.consumed _ _)) fun _ => ?_
    exact (rule.exprCtx _ _ (expr value .other h.2)).bind fun _ =>
      (rule.bound binding).bind fun _ => Safe.pure _
  | .expr e, h => by
    unfold checkStmt
    unfold HirStmt.Everywhere at h
    exact (expr e .read h.2).bind fun _ =>
      Safe.bind (rule.leaked e) fun _ => Safe.pure _
  | .defer e, h => by
    unfold checkStmt
    unfold HirStmt.Everywhere at h
    exact (expr e .read h.2).bind fun _ => (rule.deferred h.1).bind fun _ => Safe.pure _
  | .drop e, h => by
    unfold checkStmt
    unfold HirStmt.Everywhere at h
    split
    · rename_i binding hbinding
      exact (rule.localDrop h.1 hbinding).bind fun _ => Safe.pure _
    · split
      · rename_i place hplace
        exact (rule.fieldDrop h.1 hplace).bind fun _ => Safe.pure _
      · exact (rule.exprCtx _ _ (expr e .other h.2)).bind fun _ => Safe.pure _
  | .whileLoop condition body, h => by
    unfold HirStmt.Everywhere at h
    exact rule.whileLoop (expr condition .read h.2.1) (rule.blockOf _ (block body .read h.2.2))
  | .loop body, h => by
    unfold HirStmt.Everywhere at h
    exact rule.loop (rule.blockOf _ (block body .read h.2))
  | .observe id source aliased body, h => by
    unfold checkStmt
    unfold HirStmt.Everywhere at h
    have hbody := rule.observationBody body (block body .read h.2.2)
    split
    · rename_i place hplace
      exact (rule.observed h.1 hplace hbody).bind fun _ => Safe.pure _
    · exact (expr source .read h.2.1).bind fun _ => hbody.bind fun _ => Safe.pure _

end

end

end WalkRule

end Napitia.Resourceck

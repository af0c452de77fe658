import Napitia.Lower.Deciding

/-!
# Matches, fallible calls and handlers

A `match` lowers its arms leaf by leaf, a `handle` each failure arm where the first case
reaches it and the success arm last.
-/
namespace Napitia.Lower
open Nir StateT
open Hir (ExprId HirHandleArmKind)
open Hir.Body

section
variable {B : BodyLowering} {retTy : Ty} {α β : Type} {a b c : FnBuilder} {r : Record}
  {pending : List ℕ} {t u : Trail} {x : Build LoweredExpr} {never : Bool} {sink : ArmSink}
  {bodies : List (ArmSink → Build Unit)} {trails : List Trail} {e operand : HirExpr}

/-! ### Arms -/

/-- The bodies of arms whose values join after the construct, or do not. -/
def BodiesLower (B : BodyLowering) (retTy : Ty) (never : Bool)
    (bodies : List (ArmSink → Build Unit)) (trails : List Trail) : Prop :=
  List.Forall₂ (fun body t => ∀ sink : ArmSink, sink.merged.isNone = never →
    LowersStmt B retTy (body sink) t) bodies trails

theorem BodiesLower.at (h : BodiesLower B retTy never bodies trails)
    (hsink : sink.merged.isNone = never) {index : ℕ} {body : ArmSink → Build Unit}
    (hbody : bodies[index]? = some body) :
    LowersStmt B retTy (body sink) (trails.getD index {}) := by
  induction h generalizing index with
  | nil => cases hbody
  | cons hfirst _ ih =>
    cases index with
    | zero =>
      cases hbody
      exact hfirst sink hsink
    | succ index => exact ih hbody

theorem lowersStmt_lowerArmBody (id : ExprId) (hx : LowersTo B retTy x t)
    (hsink : sink.merged.isNone = never) :
    LowersStmt B retTy (lowerArmBody B id x sink) (armTrail never id t) := by
  unfold lowerArmBody armTrail
  cases hmerged : sink.merged with
  | none =>
    have hnever : never = true := by rw [← hsink, hmerged]; rfl
    rw [if_pos hnever]
    refine (hx.statement (fun _ => straight_pure _) rfl).mono fun _ ended h => ?_
    rw [h, Trail.asStmt, Trail.lost]
    cases t.ending <;> rfl
  | some target =>
    have hnever : ¬never = true := by rw [← hsink, hmerged]; simp
    rw [if_neg hnever]
    refine LowersTo.follow hx (fun hending value => ?_) ⟨(), rfl, fun hgone => ?_⟩
    · rw [andThen_value hending, ← record_append_nil (Trail.leaves id).toRecord]
      refine (lowers_emitCheckedCleanup id).bind (fun _ _ h => h) fun _ _ => ?_
      exact (straight_storeInto_terminated _ _ _).mono fun _ _ h => by simp [h, Trail.leaves]
    · rw [andThen_gone hgone]

theorem lowersStmt_lowerArmIntoReturnSink (hx : LowersTo B retTy x t) :
    LowersStmt B retTy (lowerArmIntoReturnSink x) t :=
  hx.map_result fun _ _ h => h.ended_eq

/-! ### `match` -/

theorem decides_decideArms (h : BodiesLower B retTy never bodies trails)
    (hsink : sink.merged.isNone = never) (scrutinee : Occurrence) (patterns : List HirPattern) :
    Decides B retTy trails (decideArms B.toLowering (lowerArmOf bodies) sink scrutinee patterns)
      (B.matchLeaves scrutinee.ty patterns) := by
  have harms : ∀ index, LowersStmt B retTy (lowerArmOf bodies sink index)
      (trails.getD index {}) :=
    fun index => lowers_orFail_bind fun body hbody => h.at hsink hbody
  have hdecides := decides_lowerDecision (L := B.toLowering) harms
    (Limits.maxPatternDepth + 1)
    (patterns.zipIdx.map fun p => { armIndex := p.2, patterns := [.real p.1] }) [scrutinee]
  rw [List.map_map] at hdecides
  exact hdecides

theorem lowersTo_lowerMatch (h : BodiesLower B retTy never bodies trails) {resultTy : Ty}
    (hnever : never = decide (resultTy = .never)) (scrutinee : Occurrence)
    (patterns : List HirPattern) :
    LowersTo B retTy (lowerMatch B.toLowering (lowerArmOf bodies) scrutinee patterns resultTy)
      (afterParts never (leavesTrail trails (B.matchLeaves scrutinee.ty patterns))) := by
  by_cases hty : resultTy = .never
  · obtain rfl : never = true := by rw [hnever, decide_eq_true hty]
    rw [lowerMatch, if_pos hty]
    exact (decides_decideArms h rfl scrutinee patterns).map_result fun _ ended hleaves => by
      rw [hleaves.2]
      exact Ending.lost_fits _
  · obtain rfl : never = false := by rw [hnever, decide_eq_false hty]
    rw [lowerMatch, if_neg hty]
    intro a b v ha hrun
    obtain ⟨slot, b₁, hslot, hrun⟩ := run_bind_eq_ok.mp hrun
    obtain ⟨after, b₂, hafter, hrun⟩ := run_bind_eq_ok.mp hrun
    obtain ⟨_, b₃, hdecide, hrun⟩ := run_bind_eq_ok.mp hrun
    obtain ⟨_, b₄, hback, hload⟩ := run_bind_eq_ok.mp hrun
    have hopened := ((ha.working B).straight (straight_pushValue fun _ => rfl) hslot).openOne hafter
    have hsink : (ArmSink.merge slot after).merged.isNone = false := rfl
    have hleaves := hopened.piece (decides_decideArms h hsink scrutinee patterns) hdecide
    rw [record_nil_append] at hleaves
    exact (hleaves.1.enter hback).done (straight_pushValue fun _ => rfl).lowersTo hload

theorem lowersTo_lowerMatchExpr (hx : LowersTo B retTy x t)
    (h : BodiesLower B retTy never bodies trails) {resultTy : Ty}
    (hnever : never = decide (resultTy = .never)) (patterns : List HirPattern) :
    LowersTo B retTy (lowerMatchExpr B e x patterns bodies resultTy)
      (t.andThen (afterParts never (decisionTrail B e patterns trails))) := by
  apply hx.onValue
  intro value
  apply lowers_orFail_bind
  intro ty hty
  rw [decisionTrail, typeOf_eq hty]
  have hmatch := lowersTo_lowerMatch h hnever ⟨value, ty⟩ patterns
  cases never with
  | true => exact hmatch.congr rfl rfl
  | false => exact hmatch.congr rfl rfl

theorem lowersTo_lowerMatchExprIntoReturnSink (hx : LowersTo B retTy x t)
    (h : BodiesLower B retTy true bodies trails) (patterns : List HirPattern) :
    LowersTo B retTy (lowerMatchExprIntoReturnSink B e x patterns bodies)
      (t.andThen (decisionTrail B e patterns trails).lost) := by
  apply hx.onValue
  intro value
  apply lowers_orFail_bind
  intro ty hty
  rw [decisionTrail, typeOf_eq hty]
  have hsink : ArmSink.finish.merged.isNone = true := rfl
  exact (decides_decideArms h hsink ⟨value, ty⟩ patterns).map_result fun _ ended hleaves => by
    rw [hleaves.2]
    exact Ending.lost_fits _

/-! ### Fallible calls -/

/-- The blocks a fallible call leaves to be turned to. -/
def Invocation.targets (invocation : Invocation) : List ℕ :=
  (invocation.merge.map (·.2.index)).toList ++ [invocation.okTarget.index] ++
    invocation.errBlocks.map (·.2.2.index)

theorem Working.openMerge {mergeTy : Option Ty} {merge : Option (ValueId × BlockId)}
    (h : Working B retTy a r b pending) (hrun : (openMerge mergeTy).run b = .ok (merge, c)) :
    Working B retTy a r c (pending ++ (merge.map (·.2.index)).toList) ∧
      merge.isSome = mergeTy.isSome := by
  cases mergeTy with
  | none =>
    obtain ⟨rfl, rfl⟩ := run_pure_eq_ok.mp hrun
    rw [Option.map_none, Option.toList_none, List.append_nil]
    exact ⟨h, rfl⟩
  | some ty =>
    obtain ⟨slot, b₁, hslot, hrun⟩ := run_bind_eq_ok.mp hrun
    obtain ⟨after, b₂, hafter, hpure⟩ := run_bind_eq_ok.mp hrun
    obtain ⟨rfl, rfl⟩ := run_pure_eq_ok.mp hpure
    exact ⟨(h.straight (straight_pushValue fun _ => rfl) hslot).openOne hafter, rfl⟩

theorem Working.openErrBlocks {context : String} {raises : List ItemId}
    {errs : List (ItemId × ValueId × BlockId)} (h : Working B retTy a r b pending)
    (hrun : (raises.mapM (openErrBlock B context)).run b = .ok (errs, c)) :
    Working B retTy a r c (pending ++ errs.map (·.2.2.index)) ∧ errs.map (·.1) = raises := by
  induction raises generalizing b pending errs with
  | nil =>
    rw [List.mapM_nil] at hrun
    obtain ⟨rfl, rfl⟩ := run_pure_eq_ok.mp hrun
    rw [List.map_nil, List.append_nil]
    exact ⟨h, rfl⟩
  | cons variant raises ih =>
    rw [List.mapM_cons] at hrun
    obtain ⟨err, b₁, herr, hrun⟩ := run_bind_eq_ok.mp hrun
    obtain ⟨others, b₂, hothers, hpure⟩ := run_bind_eq_ok.mp hrun
    obtain ⟨rfl, rfl⟩ := run_pure_eq_ok.mp hpure
    obtain ⟨layout, b₃, hlayout, herr⟩ := run_bind_eq_ok.mp herr
    obtain ⟨slot, b₄, hslot, herr⟩ := run_bind_eq_ok.mp herr
    obtain ⟨block, b₅, hblock, hpure⟩ := run_bind_eq_ok.mp herr
    obtain ⟨rfl, rfl⟩ := run_pure_eq_ok.mp hpure
    have hfound := h.straight (reads_orFail _ _).straight hlayout
    have hopened := (hfound.straight (straight_pushValue fun _ => rfl) hslot).openOne hblock
    have hrest := ih hopened hothers
    rw [List.append_assoc] at hrest
    exact ⟨hrest.1, congrArg (variant :: ·) hrest.2⟩

theorem Working.emitInvoke {context : String} {id : ExprId} {item : ItemId} {typeArgs : List Ty}
    {ty : Ty} {mergeTy : Option Ty} {values : List ValueId} {invocation : Invocation}
    (h : Working B retTy a r b [])
    (hrun : (emitInvoke B context id item typeArgs ty mergeTy values).run b = .ok (invocation, c)) :
    Forks B retTy a r c invocation.targets ∧
      B.functionRaises item = some (invocation.errBlocks.map (·.1)) ∧
      invocation.merge.isSome = mergeTy.isSome := by
  obtain ⟨requirements, b₁, hrequirements, hrun⟩ := run_bind_eq_ok.mp hrun
  obtain ⟨evidence, b₂, hevidence, hrun⟩ := run_bind_eq_ok.mp hrun
  obtain ⟨raises, b₃, hraises, hrun⟩ := run_bind_eq_ok.mp hrun
  obtain ⟨merge, b₄, hmerge, hrun⟩ := run_bind_eq_ok.mp hrun
  obtain ⟨okSlot, b₅, hslot, hrun⟩ := run_bind_eq_ok.mp hrun
  obtain ⟨okTarget, b₆, htarget, hrun⟩ := run_bind_eq_ok.mp hrun
  obtain ⟨errs, b₇, herrs, hrun⟩ := run_bind_eq_ok.mp hrun
  obtain ⟨_, b₈, hclose, hpure⟩ := run_bind_eq_ok.mp hrun
  obtain ⟨rfl, rfl⟩ := run_pure_eq_ok.mp hpure
  have hrecorded : B.functionRaises item = some raises := by
    unfold lookupFunctionRaises orFail at hraises
    cases hentry : B.functionRaises item with
    | none =>
      rw [hentry] at hraises
      exact absurd hraises run_throw_ne_ok
    | some entry =>
      rw [hentry] at hraises
      rw [(run_pure_eq_ok.mp hraises).1]
  have hasked := ((h.straight (reads_orFail _ _).straight hrequirements).straight
    (reads_resolveCallEvidence _ _ _).straight hevidence).straight
    (reads_orFail _ _).straight hraises
  have hmerged := hasked.openMerge hmerge
  have htargeted := (hmerged.1.straight (straight_pushValue fun _ => rfl) hslot).openOne htarget
  have hall := htargeted.openErrBlocks herrs
  refine ⟨hall.1.close hclose, ?_, hmerged.2⟩
  rw [hrecorded, hall.2]

end

end Napitia.Lower

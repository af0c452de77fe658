import Napitia.Resourceck.JoinSoundness
import Napitia.Resourceck.KeptPlans

/-!
# Arms that end apart

What the arms of a construct come to is joined after it, and arms that disagree about a
place leave it in error. In returned position nothing is reported of that, for each arm
is taken to return on its own; but arms of a construct whose value is not affine meet
before the one exit of the function, and what is destroyed there is read off their join.
-/
namespace Napitia.Resourceck
open Nir Lower Stateful
open Hir (ExprId)
open Hir.Body

section
variable (C : FlowContext)

/-- The states the arms of a construct start from, those each of them ends in, and the
checker before these are joined. -/
def armEnds :
    HirExpr → ConsumeKind → FlowState →
      Option (PlaceStates × List (PlaceStates × Bool) × FlowState)
  | .ifExpr id condition thenBranch elseBranch, kind, s =>
    let s := after (checkExprCtxInner C condition .read) s
    let start := branchStart C id kind s
    let t := after (blockCtx C thenBranch.id
      (checkBlockCtxInner C thenBranch (branchKind C id kind s))) start
    let ended := (checkElse C start.states (branchKind C id kind s) elseBranch).run
      { t with states := start.states }
    some (start.states, [(t.states, C.diverges thenBranch.id), ended.1], ended.2)
  | .matchExpr id scrutinee arms, kind, s =>
    let s := after (exprCtx C scrutinee (scrutineeKind C scrutinee)
      (checkExprCtxInner C scrutinee (scrutineeKind C scrutinee))) s
    let start := branchStart C id kind s
    let ended := (checkMatchArms C id start.states (branchKind C id kind s) arms).run start
    some (start.states, ended.1, ended.2)
  | .handle id operand arms, kind, s =>
    let s := after (checkExprCtxInner C operand .read) s
    let start := branchStart C id kind s
    let ended := (checkHandleArms C id start.states (branchKind C id kind s) arms).run start
    some (start.states, ended.1, ended.2)
  | _, _, _ => none

end

/-- Every arm whose end is reached leaves each place of the locals tracked on entry in one
and the same state; a place the arm records nothing for is left as it was. -/
def ArmsAgree (entry : PlaceStates) (branches : List (PlaceStates × Bool)) : Prop :=
  ∀ key : LocalPlace, key.root ∈ trackedRoots entry →
    ∃ state ≠ .error, ∀ arm ∈ reachableBranches branches, defaultFor entry arm key = state

section
variable {C : FlowContext} {entry : PlaceStates} {branches : List (PlaceStates × Bool)}
  {key : LocalPlace}

/-! ### The join of the arms -/

theorem trackedRoots_of_join (hedges : reachableBranches branches ≠ [])
    (hkey : (joinBranchStates entry branches).lookup key ≠ none) :
    key.root ∈ trackedRoots entry := by
  obtain ⟨first, rest, heq⟩ := List.exists_cons_of_ne_nil hedges
  rw [joinBranchStates, heq] at hkey
  simp only [lookup_foldl_join, AList.lookup_tabulate, List.mem_dedup, List.mem_append] at hkey
  by_cases hmem : key ∈ entry.keys ∨ key ∈ (first :: rest).flatMap (trackedKeys entry)
  · cases hmem with
    | inl hmem => exact mem_trackedRoots hmem
    | inr hmem =>
      obtain ⟨_, _, htracked⟩ := List.mem_flatMap.mp hmem
      exact (mem_trackedKeys.mp htracked).2
  · rw [if_neg hmem] at hkey
    exact absurd rfl hkey

/-- Where some arm reaches the end, the arms agree exactly if their join is in error
nowhere. -/
theorem armsAgree_iff_join (hedges : reachableBranches branches ≠ []) :
    ArmsAgree entry branches ↔ isError (joinBranchStates entry branches) = false := by
  rw [← Bool.not_eq_true, isError_iff, not_exists]
  constructor
  · intro hagree key herror
    have hroot : key.root ∈ trackedRoots entry := by
      apply trackedRoots_of_join hedges
      rw [herror]
      exact Option.some_ne_none _
    have ⟨state, hne, hall⟩ := hagree key hroot
    have hmerged : merged entry (reachableBranches branches) [] key = state :=
      (merged_eq_iff hedges hne).mpr ⟨List.not_mem_nil, hall⟩
    have hrecorded := recorded_joinBranchStates hedges hroot
    rw [hmerged, recorded, herror, Option.getD_some] at hrecorded
    exact hne hrecorded.symm
  · intro hnone key hroot
    have hrecorded := recorded_joinBranchStates hedges hroot
    have hne : merged entry (reachableBranches branches) [] key ≠ .error := by
      intro herror
      rw [herror, recorded] at hrecorded
      cases hlookup : (joinBranchStates entry branches).lookup key with
      | none =>
        rw [hlookup] at hrecorded
        cases hrecorded
      | some state =>
        rw [hlookup, Option.getD_some] at hrecorded
        rw [hrecorded] at hlookup
        exact hnone key hlookup
    exact ⟨_, hne, ((merged_eq_iff hedges hne).mp rfl).2⟩

theorem armsAgree_of_none (h : reachableBranches branches = []) : ArmsAgree entry branches := by
  intro key _
  refine ⟨.available, by decide, ?_⟩
  rw [h]
  exact fun arm harm => absurd harm List.not_mem_nil

/-! ### What is reported of the join -/

theorem branchKind_returned (C : FlowContext) (id : ExprId) (kind : ConsumeKind) (s : FlowState) :
    branchKind C id kind s = .returned ↔ kind = .returned := by
  unfold branchKind checkCompoundOrigin
  rw [run_ite]
  split
  case isTrue h =>
    simp only [Bool.and_eq_true, decide_eq_true_eq] at h
    rw [h.1]
    exact ⟨fun h => (nomatch h), fun h => (nomatch h)⟩
  case isFalse => exact Iff.rfl

theorem leave_of_armEnds {e : HirExpr} {kind : ConsumeKind} {s t : FlowState}
    (h : armEnds C e kind s = some (entry, branches, t)) :
    ∃ kind', (kind' = .returned ↔ kind = .returned) ∧
      Point.leave C (.expr e kind) s = after (finishBranches kind' entry branches) t := by
  cases e with
  | ifExpr id condition thenBranch elseBranch =>
    cases h
    refine ⟨branchKind C id kind (after (checkExprCtxInner C condition .read) s),
      branchKind_returned C id kind _, ?_⟩
    simp only [Point.leave, checkExprCtxInner]
    rfl
  | matchExpr id scrutinee arms =>
    cases h
    refine ⟨branchKind C id kind (after (exprCtx C scrutinee (scrutineeKind C scrutinee)
      (checkExprCtxInner C scrutinee (scrutineeKind C scrutinee))) s),
      branchKind_returned C id kind _, ?_⟩
    simp only [Point.leave, checkExprCtxInner]
    rfl
  | handle id operand arms =>
    cases h
    refine ⟨branchKind C id kind (after (checkExprCtxInner C operand .read) s),
      branchKind_returned C id kind _, ?_⟩
    simp only [Point.leave, checkExprCtxInner]
    rfl
  | _ => cases h

theorem isError_of_silent {kind : ConsumeKind} {t : FlowState} (hkind : kind ≠ .returned)
    (hentry : isError entry = false)
    (hsilent : (after (finishBranches kind entry branches) t).diagnostics = []) :
    isError (joinBranchStates entry branches) = false := by
  by_contra herror
  rw [Bool.not_eq_false] at herror
  simp only [finishBranches, after_bind, hkind, herror, hentry, ne_eq,
    not_false_eq_true, Bool.not_false, and_self, if_true, diagnose] at hsilent
  exact absurd hsilent (List.append_ne_nil_of_right_ne_nil _ (List.cons_ne_nil _ _))

/-- Wherever a construct of an accepted function does not stand in returned position, its arms
agree, unless an earlier report left the state it is entered in in error. -/
theorem arms_agree_elsewhere {f : HirFunction} (haccepts : Accepts C f) {e : HirExpr}
    {kind : ConsumeKind} {s t : FlowState} (hvisits : Visits C f (.expr e kind) s)
    (hends : armEnds C e kind s = some (entry, branches, t)) (hkind : kind ≠ .returned)
    (hentry : isError entry = false) : ArmsAgree entry branches := by
  obtain ⟨kind', hreturned, hleave⟩ := leave_of_armEnds hends
  have hsilent := hvisits.silent haccepts
  rw [hleave] at hsilent
  have hkind' : kind' ≠ .returned := fun h => hkind (hreturned.mp h)
  have hjoin := isError_of_silent hkind' hentry hsilent
  by_cases hedges : reachableBranches branches = []
  · exact armsAgree_of_none hedges
  · exact (armsAgree_iff_join hedges).mpr hjoin

end

/-- A function of a file and a condition. -/
def choosingContext : FlowContext :=
  { fileContext with localTypes := fun binding => some (if binding = ⟨0⟩ then .named ⟨0⟩ else .bool) }

/-- `if c { drop a; } else { drop a; }` -/
def dropsInBothArms : HirExpr :=
  .ifExpr ⟨25⟩ (.localVar ⟨11⟩ ⟨1⟩) (.mk ⟨21⟩ [.drop (.localVar ⟨1⟩ ⟨0⟩)] none)
    (some (.block (.mk ⟨23⟩ [.drop (.localVar ⟨2⟩ ⟨0⟩)] none)))

/-- `func f(take a: File, c: bool) -> i64 { if c { drop a; } else { drop a; } 1 }` -/
def dropsThenOne : HirFunction where
  id := ⟨9⟩
  params := [⟨⟨0⟩, true⟩, ⟨⟨1⟩, false⟩]
  body := .mk ⟨20⟩ [.expr dropsInBothArms] (some (.int ⟨24⟩ 1))

theorem arms_agree_elsewhere_dropsThenOne : ∃ s entry branches t,
    Visits choosingContext dropsThenOne (.expr dropsInBothArms .read) s ∧
      armEnds choosingContext dropsInBothArms .read s = some (entry, branches, t) ∧
      ArmsAgree entry branches := by
  have hvisits : Visits choosingContext dropsThenOne (.expr dropsInBothArms .read) _ :=
    ((Relation.ReflTransGen.refl.tail .blockStmts).tail .firstStmt).tail .stmtExpr
  exact ⟨_, _, _, _, hvisits, rfl,
    arms_agree_elsewhere (by decide) hvisits rfl (by decide) (by decide)⟩

end Napitia.Resourceck

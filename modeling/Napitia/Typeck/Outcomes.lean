import Napitia.Hir
import Napitia.Hir.Lexical

/-!
# Checking typed outcomes

`raise`, `?` and `handle` against the errors a function declares. The checker of
every other expression is a parameter that only ever adds diagnostics, so a check
that ends with none had none anywhere. What it then has established of a `handle` is
that each pair of a raised variant and one of its cases has an arm, and that no arm
comes after one that already covers what it names.
-/
namespace Napitia.Typeck.Outcomes
open Nir Lower Hir

inductive OutcomeCode where
  | arityMismatch | unsupportedFeature | tryOnInfallible | propagationNotDeclared
  | raiseTypeMismatch | nonExhaustiveHandler | unreachableHandleArm | missingSuccessArm
  | duplicateSuccessArm | failurePatternWrongType | failureCaseIndexOutOfRange
  | calleeMetadataMissing
  deriving DecidableEq, Repr

def OutcomeCode.asStr : OutcomeCode → String
  | .arityMismatch => "T0002"
  | .unsupportedFeature => "T0007"
  | .tryOnInfallible => "T0049"
  | .propagationNotDeclared => "T0050"
  | .raiseTypeMismatch => "T0051"
  | .nonExhaustiveHandler => "T0053"
  | .unreachableHandleArm => "T0054"
  | .missingSuccessArm => "T0055"
  | .duplicateSuccessArm => "T0056"
  | .failurePatternWrongType => "T0057"
  | .failureCaseIndexOutOfRange => "T0058"
  | .calleeMetadataMissing => "T0060"

structure LocalInfo where
  ty : Ty
  mutable : Bool

/-- The state of the checker; `rest` is what no check of an outcome touches. -/
structure CheckState (σ : Type) where
  diagnostics : List String := []
  locals : AList (fun _ : LocalId => LocalInfo) := ∅
  exprTypes : AList (fun _ : ExprId => Ty) := ∅
  rest : σ

abbrev Check (σ α : Type) := StateM (CheckState σ) α

/-- What the checks of outcomes are given: the declarations, the raised set of the
function being checked, and the checker of everything else. -/
structure Checker (σ E Body : Type) where
  functions : ItemId → Option (List ItemId)
  variants : ItemId → Option VariantLayout
  currentRaises : List ItemId
  checkExpr : HirExpr E → Check σ Ty
  checkCallAt : ExprId → HirExpr E → List (HirExpr E) → Bool → Check σ Ty
  checkArmBody : Body → Check σ Ty
  resolve : Ty → Check σ Ty
  unifyReport : Ty → Ty → Check σ Unit

/-- Everything else only adds diagnostics. -/
structure Checker.Reports {σ E Body : Type} (C : Checker σ E Body) : Prop where
  checkExpr : ∀ e, Log.Appends CheckState.diagnostics (C.checkExpr e)
  checkCallAt : ∀ id callee args handled,
    Log.Appends CheckState.diagnostics (C.checkCallAt id callee args handled)
  checkArmBody : ∀ body, Log.Appends CheckState.diagnostics (C.checkArmBody body)
  resolve : ∀ ty, Log.Appends CheckState.diagnostics (C.resolve ty)
  unifyReport : ∀ a b, Log.Appends CheckState.diagnostics (C.unifyReport a b)

section
variable {σ E Body : Type} (C : Checker σ E Body)

def report (code : OutcomeCode) : Check σ Unit :=
  modify fun s => { s with diagnostics := s.diagnostics ++ [code.asStr] }

def bindLocal (binding : LocalId) (ty : Ty) : Check σ Unit :=
  modify fun s => { s with locals := s.locals.insert binding ⟨ty, false⟩ }

/-- The declared raised set of a callee: of a function its own, unless it was never
registered, and of anything else the empty one. -/
def Checker.calleeRaises : HirExpr E → Option (List ItemId)
  | .function _ item => C.functions item
  | _ => some []

/-- Whether an argument of a call diverges, by the types recorded for them. -/
def diverges (s : CheckState σ) (args : List (HirExpr E)) : Bool :=
  args.any fun arg => s.exprTypes.lookup arg.id = some .never

def checkRaise (operand : HirExpr E) : Check σ Ty := do
  let operandTy ← C.checkExpr operand
  let resolved ← C.resolve operandTy
  if resolved = .error ∨ resolved = .never then pure .never
  else
    let raised := (declarationOf resolved).map (·.1)
    if raised.any (· ∈ C.currentRaises) then pure .never
    else do
      report .raiseTypeMismatch
      pure .never

def checkPropagated (effect : ItemId) : Check σ Unit :=
  if effect ∈ C.currentRaises then pure () else report .propagationNotDeclared

/-- What `?` asks of the raised set of its callee. -/
def concludeTry (successTy : Ty) : Option (List ItemId) → Check σ Ty
  | none => do
    report .calleeMetadataMissing
    pure .error
  | some [] => do
    report .tryOnInfallible
    pure successTy
  | some raises => do
    raises.forM (checkPropagated C)
    pure successTy

def checkTry : HirExpr E → Check σ Ty
  | .call id callee args => do
    let successTy ← C.checkCallAt id callee args true
    if diverges (← get) args then pure .never
    else concludeTry C successTy (C.calleeRaises callee)
  | operand => do
    let _ ← C.checkExpr operand
    report .tryOnInfallible
    pure .error

/-! ### The arms of a `handle` -/

local instance : LawfulBEq (ItemId × ℕ) := inferInstance

/-- What the arms checked so far amount to. -/
structure HandleProgress where
  successCount : ℕ := 0
  wildcardSeen : Bool := false
  covered : List (ItemId × ℕ) := []
  anyInvalid : Bool := false
  armResult : Option Ty := none

/-- Every pair of a raised variant and one of its cases. -/
def requiredCases (variants : ItemId → Option VariantLayout) (raises : List ItemId) :
    List (ItemId × ℕ) :=
  raises.flatMap fun item =>
    match variants item with
    | some layout => (List.range layout.cases.length).map fun case => (item, case)
    | none => []

def payloadOf (variants : ItemId → Option VariantLayout) (item : ItemId) (case : ℕ) :
    Option (List Ty) :=
  (variants item).bind fun layout => layout.cases[case]?.map (·.payload)

def joinDivergingBranches (a b : Ty) : Check σ Ty :=
  if a = .never then pure b
  else if b = .never then pure a
  else do
    C.unifyReport a b
    pure a

/-- An arm that can be reached takes part in the type of the `handle`. -/
def joinArm (reachable : Bool) (bodyTy : Ty) (result : Option Ty) : Check σ (Option Ty) :=
  if reachable then
    match result with
    | none => pure (some bodyTy)
    | some acc => do pure (some (← joinDivergingBranches C acc bodyTy))
  else pure result

def bindPattern (pattern : HirPattern) (ty : Ty) : Check σ Unit :=
  match pattern with
  | .bind _ binding => bindLocal binding ty
  | .wildcard _ => pure ()
  | _ => report .unsupportedFeature

def reportIf (code : OutcomeCode) (p : Bool) : Check σ Unit :=
  if p then report code else pure ()

variable (raises : List ItemId) (successTy : Ty) (diverging : Bool) (progress : HandleProgress)

def checkSuccessArm (pattern : HirPattern) (body : Body) : Check σ HandleProgress := do
  let successCount := progress.successCount + 1
  reportIf .duplicateSuccessArm (successCount > 1)
  bindPattern pattern successTy
  let bodyTy ← C.checkArmBody body
  let result ← joinArm C (successCount = 1 && !diverging) bodyTy progress.armResult
  pure { progress with successCount := successCount, armResult := result }

def checkWildcardArm (body : Body) : Check σ HandleProgress := do
  let required := requiredCases C.variants raises
  let reachable := !diverging && !progress.wildcardSeen && required.any (· ∉ progress.covered)
  reportIf .unreachableHandleArm (!reachable && !diverging)
  let bodyTy ← C.checkArmBody body
  let result ← joinArm C reachable bodyTy progress.armResult
  pure { progress with wildcardSeen := true, armResult := result }

/-- An arm that names no case of the raised set: its body is checked and nothing
more. -/
def checkInvalidArm (body : Body) : Check σ HandleProgress := do
  let _ ← C.checkArmBody body
  pure { progress with anyInvalid := true }

def checkPayload (args : List HirPattern) (payload : List Ty) : Check σ Unit :=
  if payload.length ≠ args.length then report .arityMismatch
  else (args.zip payload).forM fun p => bindPattern p.1 p.2

def checkCaseArm (key : ItemId × ℕ) (args : List HirPattern) (payload : List Ty) (body : Body) :
    Check σ HandleProgress := do
  let reachable := !diverging && !progress.wildcardSeen && key ∉ progress.covered
  reportIf .unreachableHandleArm (!reachable && !diverging)
  checkPayload args payload
  let bodyTy ← C.checkArmBody body
  let result ← joinArm C reachable bodyTy progress.armResult
  pure { progress with covered := key :: progress.covered, armResult := result }

def checkFailureCase (variant : Option ItemId) (case : Option ℕ) (args : List HirPattern)
    (body : Body) : Check σ HandleProgress :=
  match variant, case with
  | some item, some index =>
    if item ∈ raises then
      match payloadOf C.variants item index with
      | some payload => checkCaseArm C diverging progress (item, index) args payload body
      | none => do
        report .failureCaseIndexOutOfRange
        checkInvalidArm C progress body
    else do
      report .failurePatternWrongType
      checkInvalidArm C progress body
  | _, _ => checkInvalidArm C progress body

def checkHandleArm (arm : HirHandleArm Body) : Check σ HandleProgress :=
  match arm.kind with
  | .success pattern => checkSuccessArm C successTy diverging progress pattern arm.body
  | .failure .wildcard => checkWildcardArm C raises diverging progress arm.body
  | .failure (.case variant case args) =>
    checkFailureCase C raises diverging progress variant case args arm.body

/-- An arm of a `handle` whose callee was never registered. -/
def checkUnregisteredArm (arm : HirHandleArm Body) : Check σ Unit := do
  match arm.kind with
  | .success (.bind _ binding) => bindLocal binding successTy
  | .failure (.case (some item) (some index) args) =>
    match payloadOf C.variants item index with
    | some payload =>
      if payload.length = args.length then
        (args.zip payload).forM fun p =>
          match p.1 with
          | .bind _ binding => bindLocal binding p.2
          | _ => pure ()
      else pure ()
    | none => pure ()
  | _ => pure ()
  let _ ← C.checkArmBody arm.body
  pure ()

/-- What is asked of all arms together once each has been checked. -/
def concludeHandle : Check σ Ty :=
  if diverging then pure .never
  else do
    reportIf .missingSuccessArm (progress.successCount = 0)
    reportIf .nonExhaustiveHandler (!progress.anyInvalid && !progress.wildcardSeen &&
      (requiredCases C.variants raises).any (· ∉ progress.covered))
    pure (progress.armResult.getD .never)

def checkArms (arms : List (HirHandleArm Body)) : Check σ Ty := do
  reportIf .tryOnInfallible raises.isEmpty
  let progress ← arms.foldlM (checkHandleArm C raises successTy diverging) {}
  concludeHandle C raises diverging progress

def checkHandle (operand : HirExpr E) (arms : List (HirHandleArm Body)) : Check σ Ty :=
  match operand with
  | .call id callee args => do
    let successTy ← C.checkCallAt id callee args true
    let diverging := diverges (← get) args
    match C.calleeRaises callee with
    | some raises => checkArms C raises successTy diverging arms
    | none => do
      report .calleeMetadataMissing
      arms.forM (checkUnregisteredArm C successTy)
      pure .error
  | operand => do
    let _ ← C.checkExpr operand
    report .tryOnInfallible
    pure .error

end

/-! ### What a check without diagnostics has established -/

section
variable {σ E Body : Type} {C : Checker σ E Body} {s s' : CheckState σ}

/-- The computation only adds diagnostics. -/
abbrev Reports {α : Type} (x : Check σ α) : Prop := Log.Appends CheckState.diagnostics x

theorem report_reports (code : OutcomeCode) : Reports (report (σ := σ) code) :=
  .modify fun _ => List.prefix_append _ _

theorem report_ne_nil {code : OutcomeCode} (h : (report code).run s = (⟨⟩, s')) :
    s'.diagnostics ≠ [] := by
  cases h
  exact List.append_ne_nil_of_right_ne_nil _ (List.cons_ne_nil _ _)

theorem reportIf_reports (code : OutcomeCode) (p : Bool) : Reports (reportIf (σ := σ) code p) :=
  .ite (report_reports code) (.pure _)

theorem reportIf_silent {code : OutcomeCode} {p : Bool} (h : (reportIf code p).run s = (⟨⟩, s'))
    (hs : s'.diagnostics = []) : p = false := by
  cases p with
  | false => rfl
  | true => exact absurd hs (report_ne_nil h)

theorem bindPattern_reports (pattern : HirPattern) (ty : Ty) :
    Reports (bindPattern (σ := σ) pattern ty) := by
  cases pattern with
  | bind id binding => exact .modify fun _ => List.prefix_rfl
  | wildcard id => exact .pure _
  | _ => exact report_reports _

theorem bindPattern_silent {pattern : HirPattern} {ty : Ty}
    (h : (bindPattern pattern ty).run s = (⟨⟩, s')) (hs : s'.diagnostics = []) :
    isBinder pattern = true := by
  cases pattern with
  | bind id binding => rfl
  | wildcard id => rfl
  | _ => exact absurd hs (report_ne_nil h)

theorem joinArm_reports (hC : C.Reports) (reachable : Bool) (bodyTy : Ty) (result : Option Ty) :
    Reports (joinArm C reachable bodyTy result) := by
  refine .ite ?_ (.pure _)
  cases result with
  | none => exact .pure _
  | some acc =>
    refine Log.Appends.bind ?_ fun _ => .pure _
    exact .ite (.pure _) (.ite (.pure _) ((hC.unifyReport acc bodyTy).bind fun _ => .pure _))

theorem checkPayload_reports (args : List HirPattern) (payload : List Ty) :
    Reports (checkPayload (σ := σ) args payload) :=
  .ite (report_reports _) (.forM fun p => bindPattern_reports p.1 p.2)

theorem checkPayload_silent {args : List HirPattern} {payload : List Ty}
    (h : (checkPayload args payload).run s = (⟨⟩, s')) (hs : s'.diagnostics = []) :
    payload.length = args.length ∧ ∀ p ∈ args, isBinder p = true := by
  unfold checkPayload at h
  split at h
  · exact absurd hs (report_ne_nil h)
  · rename_i hlen
    rw [not_ne_iff] at hlen
    refine ⟨hlen, fun p hp => ?_⟩
    obtain ⟨i, hi⟩ := List.mem_iff_getElem?.mp hp
    have hlt : i < payload.length := hlen ▸ (List.getElem?_eq_some_iff.mp hi).choose
    obtain ⟨ty, hty⟩ : ∃ ty, payload[i]? = some ty := ⟨_, List.getElem?_eq_getElem hlt⟩
    have hzip : (p, ty) ∈ args.zip payload :=
      List.mem_iff_getElem?.mpr ⟨i, List.getElem?_zip_eq_some.mpr ⟨hi, hty⟩⟩
    obtain ⟨u, u', hrun, hu⟩ := Log.silent_forM
      (fun p => bindPattern_reports p.1 p.2) h hs _ hzip
    exact bindPattern_silent hrun hu

/-- What one arm adds, when nothing about it is reported. -/
inductive ArmChecked (C : Checker σ E Body) (raises : List ItemId) (progress : HandleProgress) :
    HirHandleArmKind → HandleProgress → Prop
  | success {pattern : HirPattern} {result : Option Ty} : progress.successCount = 0 →
      isBinder pattern = true → ArmChecked C raises progress (.success pattern)
        { progress with successCount := 1, armResult := result }
  | wildcard {result : Option Ty} : progress.wildcardSeen = false →
      ArmChecked C raises progress (.failure .wildcard)
        { progress with wildcardSeen := true, armResult := result }
  | case {item : ItemId} {index : ℕ} {args : List HirPattern} {payload : List Ty}
      {result : Option Ty} : item ∈ raises → payloadOf C.variants item index = some payload →
      payload.length = args.length → (∀ p ∈ args, isBinder p = true) →
      progress.wildcardSeen = false → (item, index) ∉ progress.covered →
      ArmChecked C raises progress (.failure (.case (some item) (some index) args))
        { progress with covered := (item, index) :: progress.covered, armResult := result }

variable {raises : List ItemId} {successTy : Ty} {progress progress' : HandleProgress}

theorem checkSuccessArm_checked (hC : C.Reports) {pattern : HirPattern} {body : Body}
    (h : (checkSuccessArm C successTy false progress pattern body).run s = (progress', s'))
    (hs : s'.diagnostics = []) : ArmChecked C raises progress (.success pattern) progress' := by
  have hjoin : ∀ bodyTy, Reports (do
      let result ← joinArm C (decide (progress.successCount + 1 = 1) && !false) bodyTy
        progress.armResult
      pure { progress with successCount := progress.successCount + 1, armResult := result } :
        Check σ HandleProgress) :=
    fun _ => (joinArm_reports hC _ _ _).bind fun _ => .pure _
  obtain ⟨⟨⟩, u₁, hcount, hu₁, h⟩ := Log.silent_bind (fun _ =>
    (bindPattern_reports pattern successTy).bind fun _ => (hC.checkArmBody body).bind hjoin) h hs
  obtain ⟨⟨⟩, u₂, hbind, hu₂, h⟩ := Log.silent_bind (fun _ => (hC.checkArmBody body).bind hjoin) h hs
  obtain ⟨bodyTy, u₃, -, -, h⟩ := Log.silent_bind hjoin h hs
  have hzero : progress.successCount = 0 := by
    have hcount := of_decide_eq_false (reportIf_silent hcount hu₁)
    omega
  cases h
  rw [hzero]
  exact .success hzero (bindPattern_silent hbind hu₂)

theorem checkWildcardArm_checked (hC : C.Reports) {body : Body}
    (h : (checkWildcardArm C raises false progress body).run s = (progress', s'))
    (hs : s'.diagnostics = []) :
    ArmChecked C raises progress (.failure .wildcard) progress' := by
  have hjoin : ∀ bodyTy, Reports (do
      let result ← joinArm C (!false && !progress.wildcardSeen &&
        (requiredCases C.variants raises).any (· ∉ progress.covered)) bodyTy progress.armResult
      pure { progress with wildcardSeen := true, armResult := result } :
        Check σ HandleProgress) :=
    fun _ => (joinArm_reports hC _ _ _).bind fun _ => .pure _
  obtain ⟨⟨⟩, u, hreach, hu, h⟩ := Log.silent_bind (fun _ => (hC.checkArmBody body).bind hjoin) h hs
  have hseen : progress.wildcardSeen = false := by
    have hreach := reportIf_silent hreach hu
    simp only [Bool.not_false, Bool.and_true, Bool.true_and, Bool.not_eq_false',
      Bool.and_eq_true, Bool.not_eq_true'] at hreach
    exact hreach.1
  cases h
  exact .wildcard hseen

theorem checkCaseArm_checked (hC : C.Reports) {item : ItemId} {index : ℕ} {args : List HirPattern}
    {payload : List Ty} {body : Body} (hitem : item ∈ raises)
    (hpayload : payloadOf C.variants item index = some payload)
    (h : (checkCaseArm C false progress (item, index) args payload body).run s = (progress', s'))
    (hs : s'.diagnostics = []) :
    ArmChecked C raises progress (.failure (.case (some item) (some index) args)) progress' := by
  have hjoin : ∀ bodyTy, Reports (do
      let result ← joinArm C (!false && !progress.wildcardSeen &&
        decide ((item, index) ∉ progress.covered)) bodyTy progress.armResult
      pure { progress with covered := (item, index) :: progress.covered, armResult := result } :
        Check σ HandleProgress) :=
    fun _ => (joinArm_reports hC _ _ _).bind fun _ => .pure _
  obtain ⟨⟨⟩, u, hreach, hu, h⟩ := Log.silent_bind (fun _ =>
    (checkPayload_reports args payload).bind fun _ => (hC.checkArmBody body).bind hjoin) h hs
  obtain ⟨⟨⟩, w, hbind, hw, h⟩ := Log.silent_bind (fun _ => (hC.checkArmBody body).bind hjoin) h hs
  have hreach := reportIf_silent hreach hu
  simp only [Bool.not_false, Bool.and_true, Bool.true_and, Bool.not_eq_false', Bool.and_eq_true,
    Bool.not_eq_true', decide_eq_true_eq] at hreach
  obtain ⟨hlen, hbinders⟩ := checkPayload_silent hbind hw
  cases h
  exact .case hitem hpayload hlen hbinders hreach.1 hreach.2

theorem checkInvalidArm_reports (hC : C.Reports) (progress : HandleProgress) (body : Body) :
    Reports (checkInvalidArm C progress body) :=
  (hC.checkArmBody body).bind fun _ => .pure _

theorem checkHandleArm_checked (hC : C.Reports) {arm : HirHandleArm Body}
    (hresolved : arm.kind.Resolved)
    (h : (checkHandleArm C raises successTy false progress arm).run s = (progress', s'))
    (hs : s'.diagnostics = []) : ArmChecked C raises progress arm.kind progress' := by
  obtain ⟨kind, body⟩ := arm
  unfold checkHandleArm at h
  cases kind with
  | success pattern => exact checkSuccessArm_checked hC h hs
  | failure pattern =>
    cases pattern with
    | wildcard => exact checkWildcardArm_checked hC h hs
    | case variant case args =>
      obtain ⟨item, rfl⟩ := Option.isSome_iff_exists.mp hresolved.1
      obtain ⟨index, rfl⟩ := Option.isSome_iff_exists.mp hresolved.2
      have hreported : ∀ code, (do
          report code
          checkInvalidArm C progress body : Check σ HandleProgress).run s = (progress', s') →
          False := by
        intro code hrun
        obtain ⟨⟨⟩, u, hreport, hu, -⟩ := Log.silent_bind
          (fun _ => checkInvalidArm_reports hC progress body) hrun hs
        exact report_ne_nil hreport hu
      unfold checkFailureCase at h
      dsimp only at h
      by_cases hitem : item ∈ raises
      · rw [if_pos hitem] at h
        cases hpayload : payloadOf C.variants item index with
        | some payload =>
          simp only [hpayload] at h
          exact checkCaseArm_checked hC hitem hpayload h hs
        | none =>
          simp only [hpayload] at h
          exact (hreported _ h).elim
      · rw [if_neg hitem] at h
        exact (hreported _ h).elim

theorem checkCaseArm_reports (hC : C.Reports) (diverging : Bool) (progress : HandleProgress)
    (key : ItemId × ℕ) (args : List HirPattern) (payload : List Ty) (body : Body) :
    Reports (checkCaseArm C diverging progress key args payload body) :=
  (reportIf_reports _ _).bind fun _ => (checkPayload_reports args payload).bind fun _ =>
    (hC.checkArmBody body).bind fun _ => (joinArm_reports hC _ _ _).bind fun _ => .pure _

theorem checkHandleArm_reports (hC : C.Reports) (raises : List ItemId) (successTy : Ty)
    (diverging : Bool) (progress : HandleProgress) (arm : HirHandleArm Body) :
    Reports (checkHandleArm C raises successTy diverging progress arm) := by
  obtain ⟨kind, body⟩ := arm
  have hinvalid := checkInvalidArm_reports hC progress body
  unfold checkHandleArm
  cases kind with
  | success pattern =>
    exact (reportIf_reports _ _).bind fun _ => (bindPattern_reports _ _).bind fun _ =>
      (hC.checkArmBody body).bind fun _ => (joinArm_reports hC _ _ _).bind fun _ => .pure _
  | failure pattern =>
    cases pattern with
    | wildcard =>
      exact (reportIf_reports _ _).bind fun _ => (hC.checkArmBody body).bind fun _ =>
        (joinArm_reports hC _ _ _).bind fun _ => .pure _
    | case variant case args =>
      dsimp only
      unfold checkFailureCase
      split
      · refine .ite ?_ ((report_reports _).bind fun _ => hinvalid)
        split
        · exact checkCaseArm_reports hC _ _ _ _ _ _
        · exact (report_reports _).bind fun _ => hinvalid
      · exact hinvalid

/-- The arms of a `handle`, one after the other, each without a report. -/
inductive ArmsChecked (C : Checker σ E Body) (raises : List ItemId) :
    HandleProgress → List HirHandleArmKind → HandleProgress → Prop
  | nil {progress : HandleProgress} : ArmsChecked C raises progress [] progress
  | cons {progress progress' progress'' : HandleProgress} {kind : HirHandleArmKind}
      {kinds : List HirHandleArmKind} : ArmChecked C raises progress kind progress' →
      ArmsChecked C raises progress' kinds progress'' →
      ArmsChecked C raises progress (kind :: kinds) progress''

theorem foldlM_armsChecked (hC : C.Reports) {arms : List (HirHandleArm Body)}
    (hresolved : ∀ arm ∈ arms, arm.kind.Resolved)
    (h : (arms.foldlM (checkHandleArm C raises successTy false) progress).run s = (progress', s'))
    (hs : s'.diagnostics = []) :
    ArmsChecked C raises progress (arms.map (·.kind)) progress' := by
  induction arms generalizing progress s with
  | nil =>
    cases h
    exact .nil
  | cons arm arms ih =>
    rw [List.foldlM_cons] at h
    obtain ⟨next, u, hrun, hu, h⟩ := Log.silent_bind (fun next => Log.Appends.foldlM
      (fun progress arm => checkHandleArm_reports hC raises successTy false progress arm) next) h hs
    exact .cons (checkHandleArm_checked hC (hresolved arm List.mem_cons_self) hrun hu)
      (ih (fun a ha => hresolved a (List.mem_cons_of_mem arm ha)) h)

variable {kinds : List HirHandleArmKind} {kind : HirHandleArmKind}

theorem ArmsChecked.of_wildcardSeen (h : ArmsChecked C raises progress kinds progress')
    (hseen : progress.wildcardSeen = true) (key : ItemId × ℕ) :
    ∀ kind ∈ kinds, kind.covers key = false := by
  induction h with
  | nil => simp
  | cons harm _ ih =>
    cases harm with
    | success _ _ =>
      intro kind hkind
      rcases List.mem_cons.mp hkind with rfl | hkind
      · rfl
      · exact ih hseen kind hkind
    | wildcard hfresh => simp [hseen] at hfresh
    | case _ _ _ _ hfresh _ => simp [hseen] at hfresh

/-- The first arm that names a case, or else the first wildcard, is the first arm
that covers it. -/
theorem ArmsChecked.first_covering (h : ArmsChecked C raises progress kinds progress')
    (key : ItemId × ℕ) :
    (kinds.findIdx? (·.names key)).or (kinds.findIdx? (·.isWildcard)) =
      kinds.findIdx? (·.covers key) := by
  induction h with
  | nil => rfl
  | @cons progress next last kind kinds harm hrest ih =>
    have hlater : ((kinds.findIdx? (·.names key)).map (· + 1)).or
        ((kinds.findIdx? (·.isWildcard)).map (· + 1)) = (kinds.findIdx? (·.covers key)).map (· + 1) := by
      rw [← ih]
      cases kinds.findIdx? (·.names key) <;> rfl
    simp only [List.findIdx?_cons]
    cases harm with
    | success _ _ => simpa using hlater
    | wildcard _ =>
      have hnone : kinds.findIdx? (·.names key) = none := by
        refine List.findIdx?_eq_none_iff.mpr fun k hk => ?_
        have hcovers := hrest.of_wildcardSeen rfl key k hk
        exact (Bool.or_eq_false_iff.mp hcovers).1
      simp [hnone]
    | @case item index args payload result _ _ _ _ _ _ =>
      by_cases hkey : (item, index) = key
      · simp [hkey]
      · simpa [hkey] using hlater

theorem ArmsChecked.covered (h : ArmsChecked C raises progress kinds progress') :
    (progress'.anyInvalid = progress.anyInvalid) ∧
      (progress'.wildcardSeen = true → progress.wildcardSeen = true ∨
        ∃ kind ∈ kinds, kind.isWildcard = true) ∧
      ∀ key ∈ progress'.covered, key ∈ progress.covered ∨ ∃ kind ∈ kinds, kind.names key = true := by
  induction h with
  | nil => exact ⟨rfl, .inl, fun key => .inl⟩
  | @cons progress next last kind kinds harm hrest ih =>
    obtain ⟨hinvalid, hwildcard, hcovered⟩ := ih
    have hlater : ∀ {p : HirHandleArmKind → Prop}, (∃ k ∈ kinds, p k) → ∃ k ∈ kind :: kinds, p k :=
      fun ⟨k, hk, hp⟩ => ⟨k, List.mem_cons_of_mem kind hk, hp⟩
    cases harm with
    | success _ _ =>
      exact ⟨hinvalid, fun h => (hwildcard h).imp_right hlater,
        fun key hkey => (hcovered key hkey).imp_right hlater⟩
    | wildcard _ =>
      exact ⟨hinvalid, fun _ => .inr ⟨_, List.mem_cons_self, rfl⟩,
        fun key hkey => (hcovered key hkey).imp_right hlater⟩
    | case _ _ _ _ _ _ =>
      refine ⟨hinvalid, fun h => (hwildcard h).imp_right hlater, fun key hkey => ?_⟩
      rcases hcovered key hkey with hmem | hlater'
      · rcases List.mem_cons.mp hmem with rfl | hmem
        · exact .inr ⟨_, List.mem_cons_self, by simp [HirHandleArmKind.names]⟩
        · exact .inl hmem
      · exact .inr (hlater hlater')

/-- What every arm of an accepted `handle` is. -/
def WellNamed (variants : ItemId → Option VariantLayout) (raises : List ItemId) :
    HirHandleArmKind → Prop
  | .success pattern => isBinder pattern = true
  | .failure .wildcard => True
  | .failure (.case variant case args) => ∃ item index payload, variant = some item ∧
      case = some index ∧ item ∈ raises ∧ payloadOf variants item index = some payload ∧
      payload.length = args.length ∧ ∀ p ∈ args, isBinder p = true

theorem ArmsChecked.wellNamed (h : ArmsChecked C raises progress kinds progress') :
    ∀ kind ∈ kinds, WellNamed C.variants raises kind := by
  induction h with
  | nil => simp
  | cons harm _ ih =>
    intro kind hkind
    rcases List.mem_cons.mp hkind with rfl | hkind
    · cases harm with
      | success _ hbinder => exact hbinder
      | wildcard _ => trivial
      | case hitem hpayload hlen hbinders _ _ =>
        exact ⟨_, _, _, rfl, rfl, hitem, hpayload, hlen, hbinders⟩
    · exact ih kind hkind

/-- The arms of a `handle` that is accepted as covering what its operand raises. -/
structure Covering (variants : ItemId → Option VariantLayout) (raises : List ItemId)
    (kinds : List HirHandleArmKind) : Prop where
  wellNamed : ∀ kind ∈ kinds, WellNamed variants raises kind
  covered : ∀ key ∈ requiredCases variants raises, (kinds.findIdx? (·.covers key)).isSome
  first : ∀ key, (kinds.findIdx? (·.names key)).or (kinds.findIdx? (·.isWildcard)) =
    kinds.findIdx? (·.covers key)

theorem checkArms_covering (hC : C.Reports) {arms : List (HirHandleArm Body)} {ty : Ty}
    (hresolved : ∀ arm ∈ arms, arm.kind.Resolved)
    (h : (checkArms C raises successTy false arms).run s = (ty, s')) (hs : s'.diagnostics = []) :
    Covering C.variants raises (arms.map (·.kind)) := by
  have hconclude : ∀ progress, Reports (concludeHandle C raises false progress) := fun _ =>
    (reportIf_reports _ _).bind fun _ => (reportIf_reports _ _).bind fun _ => .pure _
  obtain ⟨⟨⟩, _, -, -, h⟩ := Log.silent_bind (fun _ => (Log.Appends.foldlM
    (fun progress arm => checkHandleArm_reports hC raises successTy false progress arm) {}).bind
      hconclude) h hs
  obtain ⟨progress, u, hfold, hu, h⟩ := Log.silent_bind hconclude h hs
  have hchecked := foldlM_armsChecked hC hresolved hfold hu
  obtain ⟨⟨⟩, _, -, -, h⟩ := Log.silent_bind (fun _ => (reportIf_reports
    .nonExhaustiveHandler (!progress.anyInvalid && !progress.wildcardSeen &&
      (requiredCases C.variants raises).any (· ∉ progress.covered))).bind fun _ => .pure _) h hs
  obtain ⟨⟨⟩, v, hexhaustive, hv, h⟩ := Log.silent_bind (fun _ => .pure _) h hs
  have hexhaustive := reportIf_silent hexhaustive hv
  refine ⟨hchecked.wellNamed, fun key hkey => ?_, hchecked.first_covering⟩
  obtain ⟨hvalid, hwildcard, hcovered⟩ := hchecked.covered
  have hcover : ∃ kind ∈ arms.map (·.kind), kind.covers key = true := by
    by_cases hseen : progress.wildcardSeen = true
    · rcases hwildcard hseen with hfalse | ⟨kind, hkind, hwild⟩
      · cases hfalse
      · exact ⟨kind, hkind, by simp [HirHandleArmKind.covers, hwild]⟩
    · have hmem : key ∈ progress.covered := by
        by_contra hmissing
        have hany : (requiredCases C.variants raises).any (· ∉ progress.covered) = true :=
          List.any_eq_true.mpr ⟨key, hkey, decide_eq_true hmissing⟩
        rw [hvalid, hany] at hexhaustive
        simp [hseen] at hexhaustive
      rcases hcovered key hmem with hfalse | ⟨kind, hkind, hnames⟩
      · cases hfalse
      · exact ⟨kind, hkind, by simp [HirHandleArmKind.covers, hnames]⟩
  rw [List.findIdx?_isSome, List.any_eq_true]
  exact hcover

theorem checkPropagated_reports (effect : ItemId) : Reports (checkPropagated C effect) :=
  .ite (.pure _) (report_reports _)

/-- An accepted `?` propagates only what the function declares. -/
theorem checkTry_declared {id : ExprId} {callee : HirExpr E} {args : List (HirExpr E)} {ty : Ty}
    (hraises : C.calleeRaises callee = some raises)
    (hevaluated : diverges ((C.checkCallAt id callee args true).run s).2 args = false)
    (h : (checkTry C (.call id callee args)).run s = (ty, s')) (hs : s'.diagnostics = []) :
    raises ≠ [] ∧ ∀ item ∈ raises, item ∈ C.currentRaises := by
  have hrun : (concludeTry C ((C.checkCallAt id callee args true).run s).1 (some raises)).run
      ((C.checkCallAt id callee args true).run s).2 = (ty, s') := by
    change (if diverges ((C.checkCallAt id callee args true).run s).2 args = true then _
      else _ : Check σ Ty).run _ = _ at h
    rw [hevaluated, if_neg Bool.false_ne_true, hraises] at h
    exact h
  cases raises with
  | nil =>
    obtain ⟨⟨⟩, u, hreport, hu, -⟩ := Log.silent_bind (fun _ => .pure _) hrun hs
    exact absurd hu (report_ne_nil hreport)
  | cons item items =>
    refine ⟨List.cons_ne_nil _ _, fun effect heffect => ?_⟩
    obtain ⟨⟨⟩, u, hpropagated, hu, -⟩ := Log.silent_bind (fun _ => .pure _) hrun hs
    obtain ⟨v, w, hone, hw⟩ := Log.silent_forM checkPropagated_reports hpropagated hu effect heffect
    unfold checkPropagated at hone
    split at hone
    · assumption
    · exact absurd hw (report_ne_nil hone)

/-- An accepted `raise` is of a type the function declares, unless its operand
diverges or was reported. -/
theorem checkRaise_declared (hC : C.Reports) {operand : HirExpr E} {ty : Ty}
    (h : (checkRaise C operand).run s = (ty, s')) (hs : s'.diagnostics = []) :
    ∃ operandTy u resolved u', (C.checkExpr operand).run s = (operandTy, u) ∧
      (C.resolve operandTy).run u = (resolved, u') ∧
      (resolved = .error ∨ resolved = .never ∨
        ∃ item args, declarationOf resolved = some (item, args) ∧ item ∈ C.currentRaises) := by
  have hjudge : ∀ resolved, Reports (if resolved = .error ∨ resolved = .never then pure .never
      else if ((declarationOf resolved).map (·.1)).any (· ∈ C.currentRaises) then pure .never
      else do
        report .raiseTypeMismatch
        pure .never : Check σ Ty) := fun _ =>
    .ite (.pure _) (.ite (.pure _) ((report_reports _).bind fun _ => .pure _))
  obtain ⟨operandTy, u, hoperand, -, h⟩ := Log.silent_bind
    (fun ty => (hC.resolve ty).bind hjudge) h hs
  obtain ⟨resolved, u', hresolve, -, h⟩ := Log.silent_bind hjudge h hs
  refine ⟨operandTy, u, resolved, u', hoperand, hresolve, ?_⟩
  by_cases hdiverges : resolved = .error ∨ resolved = .never
  · exact hdiverges.imp_right .inl
  · refine .inr (.inr ?_)
    rw [if_neg hdiverges] at h
    split at h
    · rename_i hany
      obtain ⟨item, hitem, hmem⟩ := (Option.any_eq_true _ _).mp hany
      obtain ⟨⟨item', args⟩, hdecl, rfl⟩ := Option.map_eq_some_iff.mp hitem
      exact ⟨item', args, hdecl, of_decide_eq_true hmem⟩
    · obtain ⟨⟨⟩, v, hreport, hv, -⟩ := Log.silent_bind (fun _ => .pure _) h hs
      exact absurd hv (report_ne_nil hreport)

end

/-! ### A file that may be missing -/

/-- Every function raises the variant that the checked function declares, which has one case;
every call is of type `i64`, and every operand of that variant. -/
def readsFile : Checker Unit Unit Unit where
  functions _ := some [⟨1⟩]
  variants _ := some ⟨⟨1⟩, [], [⟨⟨2⟩, []⟩]⟩
  currentRaises := [⟨1⟩]
  checkExpr _ := pure (.named ⟨1⟩)
  checkCallAt _ _ _ _ := pure .i64
  checkArmBody _ := pure .i64
  resolve := pure
  unifyReport _ _ := pure ()

theorem readsFile_reports : readsFile.Reports :=
  ⟨fun _ => .pure _, fun _ _ _ _ => .pure _, fun _ => .pure _, fun _ => .pure _,
    fun _ _ => .pure _⟩

def caught : List (HirHandleArm Unit) :=
  [⟨.success (.wildcard ⟨0⟩), ()⟩, ⟨.failure (.case (some ⟨1⟩) (some 0) []), ()⟩]

/-- A checker that has reported nothing and recorded nothing. -/
def unreported : CheckState Unit := { rest := () }

end Napitia.Typeck.Outcomes

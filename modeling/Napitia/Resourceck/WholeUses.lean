import Napitia.Resourceck.Visits

/-!
# Uses of a whole place

A place is used through the parts that are tracked on their own: the affine fields below
it. The checker looks for what became of them where a local is used and where a place is
observed; the walk down to them is the same for both.
-/
namespace Napitia.Resourceck
open Nir Lower Stateful
open Hir (ExprId)
open Hir.Body

section
variable (C : FlowContext)

/-- An affine field directly below a place, with the types of both. -/
inductive AffineField : LocalPlace × Ty → LocalPlace × Ty → Prop
  | mk {place ty item fields index fieldTy} (hfields : C.decomposableFields ty = some (item, fields))
    (hfield : fields[index]? = some fieldTy) (haffine : C.isAffine fieldTy = true) :
    AffineField (place, ty) (fieldOf place item ⟨index⟩, fieldTy)

/-- One of the places a place of this type is made of: an affine field at any depth. -/
def Descendant (place : LocalPlace) (ty : Ty) (part : LocalPlace) : Prop :=
  ∃ partTy, Relation.TransGen (AffineField C) (place, ty) (part, partTy)

/-- What the walk uses at a point as one whole. -/
inductive Uses : Point → LocalPlace → Prop
  | ofLocal {id binding kind} : Uses (.expr (.localVar id binding) kind) (ofRoot binding)
  | ofField {id base kind place} (h : C.resolvePlace (.field id base) = some place) :
    Uses (.expr (.field id base) kind) place
  | ofObserve {id source aliased body place} (h : observedSource C source = some place) :
    Uses (.stmt (.observe id source aliased body)) place

/-- Moved, dropped, or needed by a deferred call that has not run yet. -/
def isConsumed : ResourceState → Bool
  | .moved | .dropped | .dropScheduled => true
  | _ => false

/-- A place with no affine field below it that is consumed. -/
def Intact (s : FlowState) (place : LocalPlace) : Prop :=
  ∀ ty part, C.placeTy place = some ty → Descendant C place ty part →
    isConsumed (placeState s.states part) = false

/-- The affine fields of a place down to the generic depth limit are in a state that passes. -/
def PartsPass (passes : ResourceState → Bool) (s : FlowState) (place : LocalPlace) : Prop :=
  ∀ ty part, C.placeTy place = some ty → Descendant C place ty part →
    part.projections.length < Limits.maxGenericDepth → passes (placeState s.states part) = true

variable {C}

theorem wholly_of_field {passes : ResourceState → Bool} {states : PlaceStates} {n : ℕ}
    {place part : LocalPlace} {ty partTy : Ty} (h : C.wholly passes states (n + 1) place ty = true)
    (hstep : AffineField C (place, ty) (part, partTy)) : C.wholly passes states n part partTy = true := by
  cases hstep with
  | @mk _ _ item fields index _ hfields hfield haffine =>
    simp only [FlowContext.wholly, hfields, Bool.and_eq_true, List.all_eq_true] at h
    have hmem : (partTy, index) ∈ fields.zipIdx := List.mem_zipIdx_iff_getElem?.mpr hfield
    have hall := h.2 _ hmem
    simpa [haffine] using hall

theorem AffineField.length {p q : LocalPlace × Ty} (h : AffineField C p q) :
    q.1.projections.length = p.1.projections.length + 1 := by
  cases h
  simp [fieldOf]

theorem length_le_of_parts {p q : LocalPlace × Ty} (h : Relation.ReflTransGen (AffineField C) p q) :
    p.1.projections.length ≤ q.1.projections.length := by
  induction h with
  | refl => exact le_rfl
  | tail _ hstep ih =>
    have hlength := hstep.length
    omega

theorem wholly_parts {passes : ResourceState → Bool} {states : PlaceStates} {n : ℕ}
    {p q : LocalPlace × Ty} (h : C.wholly passes states n p.1 p.2 = true)
    (hparts : Relation.ReflTransGen (AffineField C) p q)
    (hlength : q.1.projections.length < p.1.projections.length + n) :
    passes (placeState states q.1) = true := by
  induction n generalizing p with
  | zero =>
    have hle := length_le_of_parts hparts
    omega
  | succ n ih =>
    cases hparts.cases_head with
    | inl heq =>
      subst heq
      simp only [FlowContext.wholly, Bool.and_eq_true] at h
      exact h.1
    | inr hhead =>
      obtain ⟨mid, hstep, hrest⟩ := hhead
      have hmid := hstep.length
      exact ih (wholly_of_field h hstep) hrest (by omega)

theorem partsPass_of_wholly {passes : ResourceState → Bool} {s : FlowState} {place : LocalPlace}
    (h : ∀ ty, C.placeTy place = some ty →
      C.wholly passes s.states (FlowContext.levelsBelow place) place ty = true) :
    PartsPass C passes s place := by
  intro ty part hty hpart hlimit
  obtain ⟨partTy, hchain⟩ := hpart
  have hle := length_le_of_parts hchain.to_reflTransGen
  have hlevels : part.projections.length < place.projections.length + FlowContext.levelsBelow place := by
    unfold FlowContext.levelsBelow
    omega
  exact wholly_parts (p := (place, ty)) (h ty hty) hchain.to_reflTransGen hlevels

/-! ### Locals -/

theorem run_rejectPartialWholeUse {root : LocalPlace} {s : FlowState} {ty : Ty}
    (hty : C.placeTy root = some ty) (h : C.placeIsWhollyAvailable s.states root ty = false) :
    (rejectPartialWholeUse C root).run s = (true, { s with diagnostics := s.diagnostics ++
      [if hasDeferProtectedDescendant s.states root then Codes.moveAfterDeferCaptured
        else Codes.partialParentUsedAsWhole] }) := by
  cases hprotected : hasDeferProtectedDescendant s.states root with
  | true =>
    simp only [rejectPartialWholeUse, run_bind, run_get, hty, h, hprotected, Bool.false_eq_true,
      if_false, if_true]
    rfl
  | false =>
    simp only [rejectPartialWholeUse, run_bind, run_get, hty, h, hprotected, Bool.false_eq_true,
      if_false]
    rfl

theorem whollyAvailable_of_silent {root : LocalPlace} {s : FlowState}
    (h : (after (rejectPartialWholeUse C root) s).diagnostics = []) :
    ∀ ty, C.placeTy root = some ty → C.placeIsWhollyAvailable s.states root ty = true := by
  intro ty hty
  by_contra hpartial
  rw [after, run_rejectPartialWholeUse hty (by simpa using hpartial)] at h
  simp at h

theorem diagnostics_nil_of_grows {s t : FlowState} (h : Grows s t) (ht : t.diagnostics = []) :
    s.diagnostics = [] := by
  have hprefix := h.diagnostics
  rw [ht] at hprefix
  exact List.prefix_nil.mp hprefix

theorem whollyAvailable_of_localUse {binding : LocalId} {kind : ConsumeKind} {s : FlowState}
    (howned : binding ∉ s.observing) (hstate : s.states.lookup (ofRoot binding) = some .available)
    (hsilent : (after (checkLocalUse C binding kind) s).diagnostics = []) :
    ∀ ty, C.placeTy (ofRoot binding) = some ty →
      C.placeIsWhollyAvailable s.states (ofRoot binding) ty = true := by
  unfold checkLocalUse at hsilent
  split at hsilent
  · apply whollyAvailable_of_silent
    simpa only [checkRead, after_bind, after_get, after_pure, run_get, howned, if_false, hstate]
      using hsilent
  · simp only [checkConsume, after_bind, after_get, run_get, howned, if_false] at hsilent
    cases hrejects : s.rejectsOwnership (ofRoot binding) with
    | some code =>
      simp only [after, run_rejectOwnership_some hrejects, if_true] at hsilent
      change s.diagnostics ++ [code] = [] at hsilent
      simp at hsilent
    | none =>
      simp only [after, run_rejectOwnership_none hrejects, Bool.false_eq_true, if_false, run_bind,
        run_get, hstate] at hsilent
      refine whollyAvailable_of_silent (diagnostics_nil_of_grows (Keeps.grows (.ite (.pure _)
        (quiet_setPlace _ _).keeps) _) hsilent)

/-! ### Observed places -/

theorem placeRead_of_silent {place : LocalPlace} {s : FlowState}
    (h : (after (checkPlaceRead place) s).diagnostics = []) :
    after (checkPlaceRead place) s = s ∧ placeState s.states place ≠ .moved ∧
      placeState s.states place ≠ .dropped := by
  cases hstate : placeState s.states place with
  | available | dropScheduled | error =>
    simp only [checkPlaceRead, after_bind, run_get, hstate, after_pure, after_get]
    simp
  | moved | dropped =>
    simp only [checkPlaceRead, after_bind, run_get, hstate, after_get] at h
    simp [after, run_refuse] at h

theorem placeStatus_partial {s : FlowState} {place : LocalPlace} {ty : Ty}
    (hstate : holdsLiveValue (placeState s.states place) = true) (hty : C.placeTy place = some ty)
    (h : C.placeIsWhollyPresent s.states place ty = false) :
    C.placeStatus s place = .partiallyMoved := by
  cases hplace : placeState s.states place with
  | available | dropScheduled => simp [FlowContext.placeStatus, hplace, hty, h]
  | moved | dropped | error => simp [hplace, holdsLiveValue] at hstate

theorem grows_observeStart (id : ObservationId) (place : LocalPlace) (aliased : LocalId)
    (lexicalScope : ExprId) (s : FlowState) :
    Grows (after (checkPlaceRead place) s) (observeStart C id place aliased lexicalScope s) := by
  unfold observeStart
  cases C.placeTy place with
  | none => exact .refl _
  | some ty =>
    dsimp only
    cases C.placeStatus (after (checkPlaceRead place) s) place with
    | available | dropScheduled | observed => exact grows_of_eq rfl rfl
    | partiallyMoved => exact (quiet_diagnose _).grows _
    | moved | dropped | error => exact .refl _

theorem whollyPresent_of_observe {id : ObservationId} {place : LocalPlace} {aliased : LocalId}
    {lexicalScope : ExprId} {x : FlowM Unit} {s : FlowState} (hx : Keeps x)
    (hstate : placeState s.states place ≠ .error)
    (hsilent : (after (observePlace C id place aliased lexicalScope x) s).diagnostics = []) :
    ∀ ty, C.placeTy place = some ty → C.placeIsWhollyPresent s.states place ty = true := by
  intro ty hty
  have hread := placeRead_of_silent (diagnostics_nil_of_grows ((grows_observeStart id place aliased
    lexicalScope s).trans ((hx.grows _).trans (grows_observePlace _ _ _ _ _ _))) hsilent)
  by_contra hpartial
  have hlive : holdsLiveValue (placeState s.states place) = true := by
    cases hplace : placeState s.states place <;> simp_all [holdsLiveValue]
  have hstatus := placeStatus_partial hlive hty (by simpa using hpartial)
  simp only [observePlace, after_bind, hread.1, hty, run_get, after_get, hstatus] at hsilent
  have hreported := diagnostics_nil_of_grows (hx.grows _) hsilent
  change s.diagnostics ++ [Codes.partialParentUsedAsWhole] = [] at hreported
  simp at hreported

/-! ### Accepted functions -/

/-- In an accepted function a local it owns is read, moved or passed whole only with every
affine field below it available, and a place is observed only with every one of them live. -/
theorem accepted_uses_whole {f : HirFunction} (haccepts : Accepts C f) :
    (∀ id binding kind s, Visits C f (.expr (.localVar id binding) kind) s →
      binding ∉ s.observing → s.states.lookup (ofRoot binding) = some .available →
      PartsPass C (· = .available) s (ofRoot binding)) ∧
    ∀ id source aliased body place s, Visits C f (.stmt (.observe id source aliased body)) s →
      observedSource C source = some place → placeState s.states place ≠ .error →
      PartsPass C holdsLiveValue s place := by
  constructor
  · intro id binding kind s hvisits howned hstate
    have hsilent := hvisits.silent haccepts
    simp only [Point.leave, checkExprCtxInner] at hsilent
    exact partsPass_of_wholly (whollyAvailable_of_localUse howned hstate hsilent)
  · intro id source aliased body place s hvisits hsource hstate
    have hsilent := hvisits.silent haccepts
    unfold observedSource at hsource
    simp only [Point.leave, checkStmt, hsource, after_bind, after_pure] at hsilent
    exact partsPass_of_wholly (whollyPresent_of_observe
      (keeps_observationBody C _ (keeps_checkBlockCtxInner C _ _)) hstate hsilent)

end

/-- A record with one field that is a resource. -/
def sessionContext : FlowContext where
  localTypes _ := some (.named ⟨1⟩)
  exprTypes id :=
    if id.index = 1 then some (.named ⟨0⟩)
    else if id.index = 2 ∨ id.index = 5 then some (.named ⟨1⟩)
    else some .i64
  affineItems := [⟨0⟩, ⟨1⟩]
  variantItems _ := false
  takeFlags _ := some [false]
  affine :=
    { aggregateFieldTypes := fun item => if item = ⟨1⟩ then some [.named ⟨0⟩] else some []
      declaredResource := fun item => item = ⟨0⟩
      itemTypeParams := fun _ => some [] }
  fieldProjections id := if id.index = 1 then some (⟨1⟩, 0) else none
  fuel := 3

/-- `observe a as v { }` -/
def observeSession : HirStmt := .observe ⟨0⟩ (.localVar ⟨5⟩ ⟨0⟩) ⟨1⟩ (.mk ⟨7⟩ [] none)

/-- `inspect(a)` -/
def inspectSession : HirExpr := .call ⟨8⟩ (.function ⟨9⟩ ⟨2⟩) [.localVar ⟨5⟩ ⟨0⟩]

/-- `func f(take a: Session) { observe a as v { } inspect(a); }` -/
def observesThenInspects : HirFunction where
  id := ⟨3⟩
  params := [⟨⟨0⟩, true⟩]
  body := .mk ⟨6⟩ [observeSession, .expr inspectSession] none

theorem accepted_uses_whole_session :
    (∃ s, Visits sessionContext observesThenInspects (.expr (.localVar ⟨5⟩ ⟨0⟩) .read) s ∧
      PartsPass sessionContext (· = .available) s (ofRoot ⟨0⟩)) ∧
    ∃ s, Visits sessionContext observesThenInspects (.stmt observeSession) s ∧
      PartsPass sessionContext holdsLiveValue s (ofRoot ⟨0⟩) := by
  have hstmts : Visits sessionContext observesThenInspects
      (.stmts [observeSession, .expr inspectSession])
      (bodyStart sessionContext observesThenInspects) := .single .blockStmts
  have hrest : Visits sessionContext observesThenInspects (.stmts [.expr inspectSession])
      (after (checkStmt sessionContext observeSession)
        (bodyStart sessionContext observesThenInspects)) := hstmts.tail (.nextStmt (by decide))
  have hcall := (hrest.tail .firstStmt).tail .stmtExpr
  have hargs : Visits sessionContext observesThenInspects (.args (.function ⟨9⟩ ⟨2⟩) 0 [.localVar ⟨5⟩ ⟨0⟩])
      _ := hcall.tail (.callArgs (by decide))
  have huse : Visits sessionContext observesThenInspects (.expr (.localVar ⟨5⟩ ⟨0⟩) .read) _ :=
    hargs.tail .arg
  have huses := accepted_uses_whole (C := sessionContext) (f := observesThenInspects) (by decide)
  exact ⟨⟨_, huse, huses.1 _ _ _ _ huse (by decide) (by decide)⟩,
    _, hstmts.tail .firstStmt,
    huses.2 _ _ _ _ _ _ (hstmts.tail .firstStmt) (by decide) (by decide)⟩

/-- `defer inspect(a.input)` -/
def deferInspectInput : HirStmt :=
  .defer (.call ⟨3⟩ (.function ⟨4⟩ ⟨2⟩) [.field ⟨1⟩ (.localVar ⟨2⟩ ⟨0⟩)])

/-- `func f(take a: Session) { defer inspect(a.input); observe a as v { } }` -/
def observesOverDefer : HirFunction where
  id := ⟨3⟩
  params := [⟨⟨0⟩, true⟩]
  body := .mk ⟨6⟩ [deferInspectInput, observeSession] none

theorem observed_over_pending_defer :
    ¬ ∀ (C : FlowContext) (f : HirFunction), Accepts C f → ∀ point s place, Visits C f point s →
      Uses C point place → Intact C s place := by
  intro h
  have hstmts : Visits sessionContext observesOverDefer (.stmts [deferInspectInput, observeSession])
      (bodyStart sessionContext observesOverDefer) := .single .blockStmts
  have hrest : Visits sessionContext observesOverDefer (.stmts [observeSession])
      (after (checkStmt sessionContext deferInspectInput)
        (bodyStart sessionContext observesOverDefer)) := hstmts.tail (.nextStmt (by decide))
  have hfields : sessionContext.decomposableFields (.named ⟨1⟩) = some (⟨1⟩, [.named ⟨0⟩]) := by
    decide
  have hinput : Descendant sessionContext (ofRoot ⟨0⟩) (.named ⟨1⟩) (fieldOf (ofRoot ⟨0⟩) ⟨1⟩ ⟨0⟩) :=
    ⟨.named ⟨0⟩, .single (.mk hfields (by decide) (by decide))⟩
  have hintact := h sessionContext observesOverDefer (by decide) _ _ (ofRoot ⟨0⟩)
    (hrest.tail .firstStmt) (.ofObserve (by decide)) (.named ⟨1⟩) _ (by decide) hinput
  exact absurd hintact (by decide)

end Napitia.Resourceck

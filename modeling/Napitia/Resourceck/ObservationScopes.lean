import Napitia.Lower.Body
import Napitia.Resourceck.KeptPlans
import Napitia.Resourceck.StateRule

/-!
# Observations along the walk

Which observations are open at a point is read off the way down to it: the ones begun on
that way, loop by loop. The checker's stack is that list at every point, each exit is filed
with the ends of what lies in the loops it leaves, and nothing held by an open observation
is given up.
-/
namespace Napitia.Resourceck
open Nir Lower Stateful
open Hir (ExprId)
open Hir.Body

/-! ### Scopes of observations -/

section
variable (C : FlowContext)

/-- The observation a statement begins for its body, if it does. -/
def begun (s : FlowState) (id : ObservationId) (source : HirExpr) (aliased : LocalId) :
    Option ActiveObservation :=
  match observedSource C source with
  | none => none
  | some place =>
    match C.placeTy place, C.placeStatus (after (checkPlaceRead place) s) place with
    | some _, .available | some _, .dropScheduled | some _, .observed _ => some ⟨id, place, aliased⟩
    | _, _ => none

/-- The open observations below a point, one list for each loop around and one for what is
outside them all, the innermost first. -/
def scopesBelow (s : FlowState) (scopes : List (List ActiveObservation)) :
    Point → List (List ActiveObservation)
  | .stmt (.whileLoop _ _) | .stmt (.loop _) => [] :: scopes
  | .stmt (.observe id source aliased _) =>
    match begun C s id source aliased with
    | some o => scopes.modifyHead fun scope => o :: scope
    | none => scopes
  | _ => scopes

/-- A point the walk comes to, with the observations begun on the way there. -/
inductive OpenAt (f : HirFunction) : Point → FlowState → List (List ActiveObservation) → Prop
  | body : OpenAt f (.block f.body .returned) (bodyStart C f) [[]]
  | down {p s q t scopes} (h : OpenAt f p s scopes) (hbelow : Below C (p, s) (q, t)) :
    OpenAt f q t (scopesBelow C s scopes p)

/-- The loops around a point know how many observations are open outside them. -/
def MarksScopes : List ℕ → List (List ActiveObservation) → Prop
  | [], [_] => True
  | marker :: markers, _ :: scopes => marker = scopes.flatten.length ∧ MarksScopes markers scopes
  | _, _ => False

def observationMarkers (s : FlowState) : List ℕ := s.loopStack.map (·.observationMarker)

/-- The same observations are open, in the same loops. -/
structure Balanced (s t : FlowState) : Prop where
  observations : t.observations = s.observations
  markers : observationMarkers t = observationMarkers s

end

section
variable {C : FlowContext} {s t u : FlowState} {place : LocalPlace}

theorem Balanced.refl (s : FlowState) : Balanced s s := ⟨rfl, rfl⟩

theorem Balanced.trans (h : Balanced s t) (h' : Balanced t u) : Balanced s u :=
  ⟨h'.observations.trans h.observations, h'.markers.trans h.markers⟩

theorem Same.balanced (h : Same s t) : Balanced s t :=
  ⟨h.observations, congrArg (List.map _) h.loopStack⟩

theorem Touches.balanced {root : LocalId} (h : Touches root s t) : Balanced s t :=
  ⟨h.observations, congrArg (List.map _) h.loopStack⟩

/-! ### The walk keeps what is open -/

theorem balances {α : Type} {x : FlowM α} (h : ∀ s, Balanced s (after x s)) : Safe Balanced x :=
  .intro fun _ s hs => hs.trans (h s)

theorem balances_of_same {α : Type} {x : FlowM α} (h : Within Same x) : Safe Balanced x :=
  balances fun s => (h s).balanced

theorem balances_of_touches {α : Type} {root : LocalId} {x : FlowM α}
    (h : Within (Touches root) x) : Safe Balanced x :=
  balances fun s => (h s).balanced

theorem balances_protectPlace (place : LocalPlace) : Safe Balanced (protectPlace place) := by
  refine balances fun s => ?_
  by_cases hfree : placeState s.states place = .available
  · simp only [after, protectPlace, run_bind, run_get, hfree, if_true]
    exact ⟨rfl, rfl⟩
  · simp only [after, protectPlace, run_bind, run_get, hfree, if_false]
    exact ⟨rfl, rfl⟩

theorem balances_afterDefer (e : HirExpr) : Safe Balanced (afterDefer C e) := by
  refine Maintains.get.bind fun s _ => .ite (balances_of_same (same_diagnose _)) ?_
  refine Safe.bind (balances_of_same (same_registerDefer C e)) fun _ => ?_
  refine Safe.bind (balances_of_same (same_pushCleanup _)) fun _ => ?_
  exact Safe.forM fun place _ => balances_protectPlace place

theorem balances_bindLocal (binding : LocalId) : Safe Balanced (bindLocal C binding) := by
  unfold bindLocal whenever
  split
  · exact balances fun s => ⟨rfl, rfl⟩
  · exact Safe.pure _

theorem balances_leaveLoop (id : ExprId) {onFrame : PlaceStates → LoopFrame → LoopFrame}
    (h : ∀ states frame, (onFrame states frame).observationMarker = frame.observationMarker) :
    Safe Balanced (leaveLoop C id onFrame) := by
  refine Maintains.get.bind fun s _ => ?_
  cases s.loopStack with
  | nil => exact Safe.pure _
  | cons frame rest =>
    refine Safe.bind (balances_of_same (same_recordObservationExit _ _)) fun _ => ?_
    refine Safe.bind (balances_of_same (same_recordExit C _ _)) fun _ => ?_
    refine balances fun s => ⟨rfl, ?_⟩
    simp only [after, observationMarkers, run_modify]
    cases s.loopStack with
    | nil => rfl
    | cons frame rest => simp only [List.modifyHead_cons, List.map_cons, h]

theorem after_pushLoop (s : FlowState) : (after pushLoop s).observations = s.observations ∧
    observationMarkers (after pushLoop s) = s.observations.length :: observationMarkers s :=
  ⟨rfl, rfl⟩

theorem after_popLoop (entry : PlaceStates) (afterBase : Option PlaceStates) (bodyId : ExprId)
    (isLoop : Bool) (s : FlowState) :
    (after (popLoop C entry afterBase bodyId isLoop) s).observations = s.observations ∧
      observationMarkers (after (popLoop C entry afterBase bodyId isLoop) s) =
        (observationMarkers s).tail := by
  cases hstack : s.loopStack with
  | nil =>
    rw [after_popLoop_nil hstack]
    simp only [observationMarkers, hstack, List.map_nil, List.tail_nil, and_self]
  | cons frame rest =>
    simp only [popLoop, swapStates, after, run_bind, run_get, observationMarkers, hstack,
      List.map_cons, List.tail_cons]
    exact ⟨rfl, rfl⟩

theorem balanced_loop {entry : PlaceStates} {afterBase : Option PlaceStates} {bodyId : ExprId}
    {isLoop : Bool} (h : Balanced (after pushLoop s) t) :
    Balanced s (after (popLoop C entry afterBase bodyId isLoop) t) := by
  obtain ⟨hobservations, hmarkers⟩ := @after_popLoop C entry afterBase bodyId isLoop t
  constructor
  · rw [hobservations, h.observations, (after_pushLoop s).1]
  · rw [hmarkers, h.markers, (after_pushLoop s).2, List.tail_cons]

theorem balanced_checkPlaceRead (place : LocalPlace) (s : FlowState) :
    Balanced s (after (checkPlaceRead place) s) :=
  (within_checkPlaceRead touches_diagnose (touches_setPlace rfl) s).balanced

theorem observeStart_spec (id : ObservationId) (aliased : LocalId) (scope : ExprId)
    {source : HirExpr} (hsource : observedSource C source = some place) (s : FlowState) :
    (observeStart C id place aliased scope s).observations =
        (begun C s id source aliased).toList ++ s.observations ∧
      observationMarkers (observeStart C id place aliased scope s) = observationMarkers s := by
  have hread := balanced_checkPlaceRead place s
  have hobservations := hread.observations
  have hmarkers := hread.markers
  unfold observeStart begun
  rw [hsource]
  simp only
  cases C.placeTy place with
  | none => exact ⟨hobservations, hmarkers⟩
  | some ty =>
    simp only
    cases C.placeStatus (after (checkPlaceRead place) s) place with
    | available | dropScheduled | observed =>
      have hopened : (⟨id, place, aliased⟩ : ActiveObservation) ::
          (after (checkPlaceRead place) s).observations = ⟨id, place, aliased⟩ :: s.observations := by
        rw [hobservations]
      exact ⟨hopened, hmarkers⟩
    | partiallyMoved | moved | dropped | error => exact ⟨hobservations, hmarkers⟩

theorem balances_observePlace {id : ObservationId} {aliased : LocalId} {scope : ExprId}
    {x : FlowM Unit} (hx : Safe Balanced x) :
    Safe Balanced (observePlace C id place aliased scope x) := by
  unfold observePlace
  refine Safe.bind (balances (balanced_checkPlaceRead place)) fun _ => ?_
  cases C.placeTy place with
  | none => exact hx
  | some ty =>
    refine Maintains.get.bind fun s _ => ?_
    cases C.placeStatus s place with
    | available | dropScheduled | observed =>
      refine balances fun s => ?_
      have hbody := (hx _ _ (Balanced.refl (after (beginObservation id place aliased ty scope) s))).1
      exact ⟨congrArg List.tail hbody.observations, hbody.markers⟩
    | partiallyMoved => exact Safe.bind (balances_of_same (same_diagnose _)) fun _ => hx
    | moved | dropped | error => exact hx

theorem balanced_states (C : FlowContext) : StateRule C Balanced (fun _ => True) (fun _ => True)
    fun _ => True where
  bookkeeping hs hsame := hs.trans hsame.balanced
  states _ := trivial
  swap hs _ := ⟨hs.observations, hs.markers⟩
  localUse kind _ :=
    balances_of_touches (within_checkLocalUse C touches_diagnose (touches_setPlace rfl) kind)
  placeMove _ _ _ := balances_of_touches (within_applyPlaceMove touches_diagnose (touches_setPlace rfl))
  placeRead place := balances (balanced_checkPlaceRead place)
  reassigned _ _ :=
    balances_of_touches (within_checkReassignment touches_diagnose (touches_setPlace rfl))
  localDrop {e binding} _ _ := balances_of_touches (within_checkLocalDrop C touches_diagnose
    (touches_setPlace rfl) touches_recordCleanup e.id)
  fieldDrop {e place} _ _ := balances_of_touches (within_checkFieldDrop C touches_diagnose
    (touches_setPlace rfl) touches_recordCleanup touches_recordConsume e.id)
  bound := balances_bindLocal
  removed _ := balances fun _ => ⟨rfl, rfl⟩
  deferred _ := balances_afterDefer _
  scope {α J x} hx := by
    intro i s hs
    obtain ⟨hinner, hresult⟩ := hx i (openScope s) ⟨hs.observations, hs.markers⟩
    exact ⟨⟨hinner.observations, hinner.markers⟩, hresult⟩
  joined kind {entry branches} _ _ := by
    refine Safe.bind (balances fun _ => ⟨rfl, rfl⟩) fun _ => ?_
    exact .ite (balances_of_same (same_diagnose _)) (Safe.pure _)
  broke id := balances_leaveLoop id fun _ _ => rfl
  continued id := balances_leaveLoop id fun _ _ => rfl
  whileLoop hcondition hbody := by
    unfold checkStmt
    refine balances fun s => ?_
    have hafter := (hcondition _ _ (Balanced.refl (after pushLoop s))).1
    exact balanced_loop (hbody _ _ hafter).1
  loop hbody := by
    unfold checkStmt
    refine balances fun s => ?_
    exact balanced_loop (hbody _ _ (Balanced.refl (after pushLoop s))).1
  observed _ _ hx := balances_observePlace hx

theorem balanced_rule (C : FlowContext) : WalkRule C Balanced (fun _ => True) (fun _ => True)
    fun _ => True :=
  (balanced_states C).walkRule

theorem balanced_leave (C : FlowContext) (point : Point) (s : FlowState) :
    Balanced s (point.leave C s) :=
  (balanced_rule C).leave (point.holds (fun _ => trivial) (fun _ => trivial) fun _ => trivial) s s
    (Balanced.refl s)

/-! ### The observations open at a point -/

theorem MarksScopes.modifyHead {markers : List ℕ} {scopes : List (List ActiveObservation)}
    (h : MarksScopes markers scopes) (g : List ActiveObservation → List ActiveObservation) :
    MarksScopes markers (scopes.modifyHead g) := by
  rcases markers with _ | ⟨marker, markers⟩ <;> rcases scopes with _ | ⟨scope, _ | ⟨outer, scopes⟩⟩ <;>
    exact h

theorem enter_spec (point : Point) {scopes : List (List ActiveObservation)}
    (hopen : s.observations = scopes.flatten) (hmarks : MarksScopes (observationMarkers s) scopes) :
    (point.enter C s).observations = (scopesBelow C s scopes point).flatten ∧
      MarksScopes (observationMarkers (point.enter C s)) (scopesBelow C s scopes point) := by
  cases point with
  | stmt st =>
    cases st with
    | whileLoop condition body =>
      exact ⟨hopen, congrArg List.length hopen, hmarks⟩
    | loop body =>
      exact ⟨hopen, congrArg List.length hopen, hmarks⟩
    | observe id source aliased body =>
      cases hsource : observedSource C source with
      | none =>
        have hnone : begun C s id source aliased = none := by
          unfold begun
          rw [hsource]
        simp only [Point.enter, scopesBelow, hsource, hnone]
        exact ⟨hopen, hmarks⟩
      | some place =>
        obtain ⟨hobservations, hmarkers⟩ := observeStart_spec id aliased body.id hsource s
        simp only [Point.enter, scopesBelow, hsource]
        rw [hmarkers, hobservations, hopen]
        cases hbegun : begun C s id source aliased with
        | none => exact ⟨rfl, hmarks⟩
        | some o =>
          refine ⟨?_, hmarks.modifyHead _⟩
          cases scopes with
          | nil =>
            cases hstack : observationMarkers s <;> rw [hstack] at hmarks <;> exact hmarks.elim
          | cons scope scopes => rfl
    | _ => exact ⟨hopen, hmarks⟩
  | _ => exact ⟨hopen, hmarks⟩

theorem bodyStart_balanced (C : FlowContext) (f : HirFunction) : Balanced {} (bodyStart C f) := by
  have hparam : ∀ param, Safe Balanced (checkParam C param) := by
    intro param
    unfold checkParam
    split
    · exact .ite (balances fun _ => ⟨rfl, rfl⟩) (balances fun _ => ⟨rfl, rfl⟩)
    · exact Safe.pure _
  have hparams : Safe Balanced (f.params.forM (checkParam C)) := .forM fun param _ => hparam param
  have hstart := (hparams {} {} (Balanced.refl {})).1
  exact ⟨hstart.observations, hstart.markers⟩

/-- The checker's stack of observations is what was begun on the way, and its loops know
how much of it lies outside them. -/
theorem OpenAt.spec {f : HirFunction} {point : Point} {scopes : List (List ActiveObservation)}
    (h : OpenAt C f point s scopes) :
    s.observations = scopes.flatten ∧ MarksScopes (observationMarkers s) scopes := by
  induction h with
  | body =>
    have hstart := bodyStart_balanced C f
    refine ⟨hstart.observations, ?_⟩
    rw [hstart.markers]
    trivial
  | @down p s q t scopes h hbelow ih =>
    obtain ⟨hopen, hmarks⟩ := enter_spec p ih.1 ih.2
    have hholds : p.Holds (fun _ => True) (fun _ => True) (fun _ => True) :=
      p.holds (fun _ => trivial) (fun _ => trivial) fun _ => trivial
    obtain ⟨-, u, hlead, hu⟩ :=
      (balanced_rule C).below hbelow ⟨p.enter C s, Balanced.refl _⟩ hholds
    have hbalanced := hlead _ (Balanced.refl (p.enter C s))
    rw [← hopen, ← hbalanced.observations]
    rw [← hbalanced.markers] at hmarks
    rcases hu with hu | hu
    · change t = u at hu
      subst hu
      exact ⟨rfl, hmarks⟩
    · change t = openScope u at hu
      subst hu
      exact ⟨rfl, hmarks⟩

theorem exists_openAt {f : HirFunction} {point : Point} (h : Visits C f point s) :
    ∃ scopes, OpenAt C f point s scopes := by
  have hrun : ∀ q, Relation.ReflTransGen (Below C) (.block f.body .returned, bodyStart C f) q →
      ∃ scopes, OpenAt C f q.1 q.2 scopes := by
    intro q hq
    induction hq with
    | refl => exact ⟨_, .body⟩
    | tail _ hbelow ih =>
      obtain ⟨scopes, hopen⟩ := ih
      exact ⟨_, hopen.down hbelow⟩
  exact hrun (point, s) h

/-! ### What an exit ends -/

/-- The ends of these observations on one exit, if there are any. -/
def withEnds (exit : ExprId) (left : List ActiveObservation)
    (record : List (ExprId × List ObservationExit)) : List (ExprId × List ObservationExit) :=
  if left = [] then record else (exit, left.map fun o => ⟨o.id, exit⟩) :: record

/-- The observations an exit leaves: all of them with the function, those of the innermost
loop with a loop. -/
def leftBy : HirExpr → List (List ActiveObservation) → Option (List ActiveObservation)
  | .returnExpr .., scopes | .raise .., scopes | .tryExpr .., scopes => some scopes.flatten
  | .breakExpr .., inner :: _ :: _ | .continueExpr .., inner :: _ :: _ => some inner
  | _, _ => none

/-- Where an exit is taken: once its value is there. -/
def exitStart (C : FlowContext) : HirExpr → FlowState → FlowState
  | .returnExpr _ (some value), s =>
    after (exprCtx C value .returned (checkExprCtxInner C value .returned)) s
  | .raise _ operand, s => after (exprCtx C operand .other (checkExprCtxInner C operand .other)) s
  | .tryExpr _ operand, s => after (checkExprCtxInner C operand .read) s
  | .breakExpr _ (some value), s => after (exprCtx C value .other (checkExprCtxInner C value .other)) s
  | _, s => s

theorem after_recordObservationExit (exit : ExprId) (marker : ℕ) (s : FlowState) :
    (after (recordObservationExit exit marker) s).observationExits =
      withEnds exit (s.observations.take (s.observations.length - marker)) s.observationExits := by
  by_cases hmarker : marker < s.observations.length
  · have hne : s.observations.take (s.observations.length - marker) ≠ [] := by
      rw [ne_eq, List.take_eq_nil_iff, not_or]
      refine ⟨by omega, ?_⟩
      intro hnil
      rw [hnil] at hmarker
      cases hmarker
    simp only [after, recordObservationExit, run_bind, run_get, hmarker, if_true]
    rw [withEnds, if_neg hne]
    rfl
  · have hnil : s.observations.take (s.observations.length - marker) = [] := by
      rw [Nat.sub_eq_zero_of_le (by omega), List.take_zero]
    simp only [after, recordObservationExit, run_bind, run_get, hmarker, if_false]
    rw [withEnds, if_pos hnil]
    rfl

theorem after_exit (exit : ExprId) {scopes : List (List ActiveObservation)}
    (hopen : s.observations = scopes.flatten) :
    (after (recordObservationExit exit 0 >>= fun _ => recordExit C exit 0) s).observationExits =
      withEnds exit scopes.flatten s.observationExits := by
  have hrecord := after_recordObservationExit exit 0 s
  rw [Nat.sub_zero, List.take_length, hopen] at hrecord
  exact hrecord

theorem after_leaveLoop (exit : ExprId) (onFrame : PlaceStates → LoopFrame → LoopFrame)
    {inner outer : List ActiveObservation} {scopes : List (List ActiveObservation)}
    (hopen : s.observations = (inner :: outer :: scopes).flatten)
    (hmarks : MarksScopes (observationMarkers s) (inner :: outer :: scopes)) :
    (after (leaveLoop C exit onFrame) s).observationExits = withEnds exit inner s.observationExits := by
  cases hstack : s.loopStack with
  | nil =>
    rw [observationMarkers, hstack] at hmarks
    exact hmarks.elim
  | cons frame rest =>
    rw [observationMarkers, hstack] at hmarks
    have hmarker : frame.observationMarker = (outer :: scopes).flatten.length := hmarks.1
    have hleft : s.observations.take (s.observations.length - frame.observationMarker) = inner := by
      rw [hopen, hmarker, List.flatten_cons, List.length_append, Nat.add_sub_cancel,
        List.take_left]
    have hrecord := after_recordObservationExit exit frame.observationMarker s
    rw [hleft] at hrecord
    have hafter : (after (leaveLoop C exit onFrame) s).observationExits =
        (after (recordObservationExit exit frame.observationMarker) s).observationExits := by
      simp only [leaveLoop, after, run_bind, run_get, hstack]
      rfl
    rw [hafter, hrecord]

theorem balanced_exitStart (C : FlowContext) (e : HirExpr) (s : FlowState) :
    Balanced s (exitStart C e s) := by
  have hexpr : ∀ e' kind, Safe Balanced (checkExprCtxInner C e' kind) := fun e' kind =>
    (balanced_rule C).expr e' kind (e'.everywhere (fun _ => trivial) fun _ => trivial)
  have hctx : ∀ e' kind, Balanced s (after (exprCtx C e' kind (checkExprCtxInner C e' kind)) s) :=
    fun e' kind => (((balanced_rule C).exprCtx e' kind (hexpr e' kind)) s s (Balanced.refl s)).1
  cases e with
  | returnExpr id value =>
    cases value with
    | none => exact Balanced.refl s
    | some value => exact hctx value .returned
  | breakExpr id value =>
    cases value with
    | none => exact Balanced.refl s
    | some value => exact hctx value .other
  | raise id operand => exact hctx operand .other
  | tryExpr id operand => exact ((hexpr operand .read) s s (Balanced.refl s)).1
  | _ => exact Balanced.refl s

theorem exit_ends {scopes : List (List ActiveObservation)} {left : List ActiveObservation}
    (hopen : s.observations = scopes.flatten) (hmarks : MarksScopes (observationMarkers s) scopes)
    {e : HirExpr} (kind : ConsumeKind) (hleft : leftBy e scopes = some left) :
    (after (checkExprCtxInner C e kind) s).observationExits =
      withEnds e.id left (exitStart C e s).observationExits := by
  have hbalanced := balanced_exitStart C e s
  have hopen' := hbalanced.observations.trans hopen
  rw [← hbalanced.markers] at hmarks
  cases e with
  | returnExpr id value =>
    cases hleft
    unfold checkExprCtxInner
    cases value with
    | none => exact after_exit id hopen'
    | some value => exact after_exit id hopen'
  | raise id operand =>
    cases hleft
    unfold checkExprCtxInner
    exact after_exit id hopen'
  | tryExpr id operand =>
    cases hleft
    unfold checkExprCtxInner
    exact after_exit id hopen'
  | breakExpr id value =>
    rcases scopes with _ | ⟨inner, _ | ⟨outer, scopes⟩⟩ <;> cases hleft
    unfold checkExprCtxInner
    have hleave := after_leaveLoop (C := C) id (fun state frame =>
      { frame with breakStates := frame.breakStates ++ [state] }) hopen' hmarks
    cases value with
    | none => exact hleave
    | some value => exact hleave
  | continueExpr id =>
    rcases scopes with _ | ⟨inner, _ | ⟨outer, scopes⟩⟩ <;> cases hleft
    unfold checkExprCtxInner
    exact after_leaveLoop id _ hopen' hmarks
  | _ => cases hleft

/-! ### What is held is not given up -/

/-- What a point gives up: by moving it, by dropping it, or by assigning over it. -/
inductive Relinquishes (C : FlowContext) : Point → LocalPlace → Prop
  | moveLocal {id binding kind} (hkind : kind ≠ .read) :
    Relinquishes C (.expr (.localVar id binding) kind) (ofRoot binding)
  | moveField {id base kind place} (hkind : kind ≠ .read) (haffine : C.isAffineExpr id = true)
    (hplace : C.resolvePlace (.field id base) = some place) :
    Relinquishes C (.expr (.field id base) kind) place
  | dropLocal {e binding} (h : droppedLocal e = some binding) :
    Relinquishes C (.stmt (.drop e)) (ofRoot binding)
  | dropField {e place} (hlocal : droppedLocal e = none) (h : droppedField C e = some place) :
    Relinquishes C (.stmt (.drop e)) place
  | reassign {id target op value kind place} (h : ownedTarget C target = some place) :
    Relinquishes C (.expr (.assign id target op value) kind) place

theorem rejectsNone_of_silent {rest : FlowM Unit}
    (h : (after (rejectOwnership place >>= fun rejected => if rejected then pure () else rest) s).diagnostics
      = []) : s.rejectsOwnership place = none := by
  cases hreject : s.rejectsOwnership place with
  | none => rfl
  | some code =>
    simp only [after, run_bind, run_rejectOwnership_some hreject, if_true, run_pure] at h
    exact absurd h (List.append_ne_nil_of_right_ne_nil _ (List.cons_ne_nil _ _))

theorem unobserving_of_silent {binding : LocalId} {rest : FlowM Unit}
    (h : (after (get >>= fun s => if binding ∈ s.observing then diagnose Codes.observationEscapes
      else rest) s).diagnostics = []) : (after rest s).diagnostics = [] := by
  by_cases hmem : binding ∈ s.observing
  · simp only [after, run_bind, run_get, hmem, if_true, diagnose, run_modify] at h
    exact absurd h (List.append_ne_nil_of_right_ne_nil _ (List.cons_ne_nil _ _))
  · simp only [after, run_bind, run_get, hmem, if_false] at h
    exact h

theorem Relinquishes.rejectsNone {point : Point} (h : Relinquishes C point place)
    (hsilent : (point.leave C s).diagnostics = []) :
    ∃ t, Balanced s t ∧ t.rejectsOwnership place = none := by
  cases h with
  | @moveLocal id binding kind hkind =>
    refine ⟨s, Balanced.refl s, ?_⟩
    simp only [Point.leave, checkExprCtxInner, checkLocalUse, hkind, if_false] at hsilent
    exact rejectsNone_of_silent (unobserving_of_silent hsilent)
  | @moveField id base kind _ hkind haffine hplace =>
    refine ⟨s, Balanced.refl s, ?_⟩
    simp only [Point.leave, checkExprCtxInner, hplace, hkind, haffine, ne_eq, not_false_eq_true,
      decide_true, Bool.and_self, if_true, after_bind] at hsilent
    have hmove : (after (applyPlaceMove place) s).diagnostics = [] := hsilent
    exact rejectsNone_of_silent hmove
  | @dropLocal e binding hlocal =>
    refine ⟨s, Balanced.refl s, ?_⟩
    simp only [Point.leave, checkStmt, hlocal, after_bind, after_pure] at hsilent
    exact rejectsNone_of_silent (unobserving_of_silent hsilent)
  | @dropField e _ hlocal hfield =>
    refine ⟨s, Balanced.refl s, ?_⟩
    simp only [Point.leave, checkStmt, hlocal, hfield, after_bind, after_pure] at hsilent
    exact rejectsNone_of_silent hsilent
  | @reassign id target op value kind _ howned =>
    refine ⟨after (exprCtx C value .other (checkExprCtxInner C value .other))
      (noted C value.id .transfer s), ?_, ?_⟩
    · have hwalk := (balanced_rule C).exprCtx value .other
        ((balanced_rule C).expr value .other (value.everywhere (fun _ => trivial) fun _ => trivial))
      have hnoted : Balanced s (noted C value.id .transfer s) :=
        (same_whenever _ (same_recordConsume _ _) s).balanced
      exact (hwalk s _ hnoted).1
    · simp only [Point.leave, checkExprCtxInner, howned, after_bind] at hsilent
      exact rejectsNone_of_silent hsilent

theorem apart_of_rejectsNone (h : s.rejectsOwnership place = none) :
    ∀ o ∈ s.observations, placesOverlap o.place place = false := by
  intro o ho
  by_contra hoverlap
  have hsome : (conflictingObservation s place).isSome = true :=
    List.find?_isSome.mpr ⟨o, ho, by simpa using hoverlap⟩
  unfold FlowState.rejectsOwnership at h
  simp only [hsome, if_true] at h
  split at h
  · cases h
  · split at h <;> cases h

/-! ### The exits lowering takes -/

/-- A returned value that is taken apart: each of its leaves is handed to the return. -/
def isBranching : HirExpr → Bool
  | .block _ | .ifExpr .. | .matchExpr .. | .handle .. => true
  | _ => false

/-- The id lowering replays an exit by: a returned value of an affine type is a leaf, and a
leaf is replayed by its own id. -/
def replayedExit (affine : Bool) : HirExpr → ExprId
  | .returnExpr id (some value) => if affine then value.id else id
  | e => e.id

/-- Lowering cleans up a leaf of a returned value under the leaf's own id. -/
theorem lowerIntoReturnSink_leaf (B : BodyLowering) {finish : ValueId → Build LoweredExpr} {hint : Ty}
    {leaf : HirExpr} {lowered : Build LoweredExpr} (hleaf : isBranching leaf = false) :
    lowerIntoReturnSink B finish hint leaf lowered = lowerLeaf B finish hint leaf lowered := by
  cases leaf <;> first
    | (unfold lowerIntoReturnSink; rfl)
    | simp [isBranching] at hleaf

/-- What lowering makes of a `return` whose value is not taken apart. -/
theorem lowerExpr_returnExpr (B : BodyLowering) (id : ExprId) {value : HirExpr}
    (hvalue : isBranching value = false) (fb : FnBuilder) :
    (lowerExpr B (.returnExpr id (some value))).run fb =
      (onValue (lowerExprHinted B fb.returnTy value (lowerExpr B value)) fun returned => do
        emitCheckedCleanup B (replayedExit (B.isAffine fb.returnTy) (.returnExpr id (some value)))
        finishReturn B fb.returnTy returned).run fb := by
  have hreturn : (lowerExpr B (.returnExpr id (some value))).run fb =
      (if B.isAffine fb.returnTy then
        lowerIntoReturnSink B (finishReturn B fb.returnTy) fb.returnTy value (lowerExpr B value)
      else
        onValue (lowerExprHinted B fb.returnTy value (lowerExpr B value)) fun returned => do
          emitCheckedCleanup B id
          finishReturn B fb.returnTy returned).run fb := by
    rw [lowerExpr]
    rfl
  rw [hreturn, lowerIntoReturnSink_leaf B hvalue]
  cases haffine : B.isAffine fb.returnTy with
  | true => rfl
  | false => rfl

/-- A value that its `return` hands over by itself. A `?` has its ends filed under its own
id already, and a value that diverges is never returned. -/
def isDirect (C : FlowContext) (value : HirExpr) : Bool :=
  !isBranching value && !isTry value && !C.diverges value.id

/-- An exit as lowering takes it: the id it replays, the observations that are left, and the
state the exit is taken in. -/
structure TakenExit where
  replayed : ExprId
  left : List ActiveObservation
  start : FlowState

/-- The leaf of a returned value, where it is one. -/
def leafExit (C : FlowContext) (affine : Bool) (leaf : HirExpr) (s : FlowState)
    (scopes : List (List ActiveObservation)) : Option TakenExit :=
  if affine && !isBranching leaf && !C.diverges leaf.id then
    some ⟨leaf.id, scopes.flatten, after (exprCtx C leaf .returned (checkExprCtxInner C leaf .returned)) s⟩
  else none

/-- The exit lowering takes at a point. Of a returned value that is taken apart, the exits
are its leaves: the tail of a block, or the bare body of an arm. -/
def exitAt (C : FlowContext) (affine : Bool) :
    Point → FlowState → List (List ActiveObservation) → Option TakenExit
  | .expr (.returnExpr id (some value)) _, s, scopes =>
    if affine && !isDirect C value then none
    else some ⟨replayedExit affine (.returnExpr id (some value)), scopes.flatten,
      exitStart C (.returnExpr id (some value)) s⟩
  | .expr e _, s, scopes =>
    (leftBy e scopes).map fun left => ⟨replayedExit affine e, left, exitStart C e s⟩
  | .armBody constructId .returned (.expr e), s, scopes =>
    leafExit C (affine && C.isAffineExpr constructId) e s scopes
  | .block (.mk _ statements (some tail)) .returned, s, scopes =>
    if ((checkStmts C statements).run s).1 then
      leafExit C affine tail (after (checkStmts C statements) s) scopes
    else none
  | _, _, _ => none

/-- Observations are kept at a point: those open are the ones begun on the way to it, and
they are open again after it. The ends filed for an exit are those lowering replays for it,
the innermost first, and nothing that overlaps an open observation is moved, dropped,
assigned over or deferred. -/
structure ObservesAt (C : FlowContext) (affine : Bool) (f : HirFunction) (point : Point)
    (s : FlowState) : Prop where
  begun : ∃ scopes, OpenAt C f point s scopes
  balanced : ∀ scopes, OpenAt C f point s scopes →
    s.observations = scopes.flatten ∧ (point.leave C s).observations = scopes.flatten
  ends : ∀ scopes exit, OpenAt C f point s scopes → exitAt C affine point s scopes = some exit →
    (point.leave C s).observationExits = withEnds exit.replayed exit.left exit.start.observationExits
  held : ∀ scopes place, OpenAt C f point s scopes → Relinquishes C point place →
    ∀ o ∈ scopes.flatten, placesOverlap o.place place = false
  undeferred : ∀ scopes e place, OpenAt C f point s scopes → point = .stmt (.defer e) →
    place ∈ observedPlaces C e → ∀ o ∈ scopes.flatten, placesOverlap o.place place = false

/-- No affine value is returned by itself while an observation is open, and no call is
deferred that names what is being observed. -/
structure ObservationsClear (C : FlowContext) (affine : Bool) (point : Point) (s : FlowState) :
    Prop where
  returned : ∀ id value kind, affine = true → point = .expr (.returnExpr id (some value)) kind →
    isDirect C value = true → value.id ≠ id → s.observations = []
  deferred : ∀ e place, point = .stmt (.defer e) → place ∈ observedPlaces C e →
    ∀ o ∈ s.observations, placesOverlap o.place place = false

theorem withEnds_eq_iff {exit exit' : ExprId} {left : List ActiveObservation}
    {record : List (ExprId × List ObservationExit)} :
    withEnds exit left record = withEnds exit' left record ↔ (exit' ≠ exit → left = []) := by
  by_cases hleft : left = []
  · simp only [hleft, withEnds, if_true, implies_true]
  · simp only [withEnds, hleft, if_false, List.cons.injEq, Prod.mk.injEq, and_true, imp_false,
      ne_eq, not_not]
    constructor
    · rintro ⟨heq, -⟩
      exact heq.symm
    · rintro rfl
      exact ⟨rfl, rfl⟩

theorem after_leafExit {leaf : HirExpr} (u : FlowState) {scopes : List (List ActiveObservation)}
    (hopen : s.observations = scopes.flatten)
    (hu : u = after (exprCtx C leaf .returned (checkExprCtxInner C leaf .returned)) s) :
    (after (recordObservationExit leaf.id 0 >>= fun _ => recordExit C leaf.id 0) u).observationExits =
      withEnds leaf.id scopes.flatten u.observationExits := by
  have hwalk := (balanced_rule C).exprCtx leaf .returned
    ((balanced_rule C).expr leaf .returned (leaf.everywhere (fun _ => trivial) fun _ => trivial))
  have hbalanced : Balanced s u := by
    rw [hu]
    exact (hwalk s s (Balanced.refl s)).1
  exact after_exit leaf.id (hbalanced.observations.trans hopen)

/-- What is filed for the leaf of a returned value is filed under the leaf's id. -/
theorem leafExit_ends {leaf : HirExpr} {affine : Bool} {scopes : List (List ActiveObservation)}
    {exit : TakenExit} (hopen : s.observations = scopes.flatten)
    (hexit : leafExit C affine leaf s scopes = some exit) :
    affine = true ∧ C.diverges leaf.id = false ∧
      (after (recordObservationExit leaf.id 0 >>= fun _ => recordExit C leaf.id 0)
        (after (exprCtx C leaf .returned (checkExprCtxInner C leaf .returned)) s)).observationExits =
      withEnds exit.replayed exit.left exit.start.observationExits := by
  unfold leafExit at hexit
  split at hexit
  · rename_i hleaf
    cases hexit
    simp only [Bool.and_eq_true, Bool.not_eq_true'] at hleaf
    exact ⟨hleaf.1.1, hleaf.2, after_leafExit _ hopen rfl⟩
  · cases hexit

/-- What a point files for the exit taken there is what lowering replays, apart from a
`return` that hands over an affine value by itself. -/
theorem exitAt_ends {affine : Bool} {point : Point} {scopes : List (List ActiveObservation)}
    {exit : TakenExit} (hopen : s.observations = scopes.flatten)
    (hmarks : MarksScopes (observationMarkers s) scopes)
    (hexit : exitAt C affine point s scopes = some exit) :
    (∃ id value kind, affine = true ∧ isDirect C value = true ∧
      point = .expr (.returnExpr id (some value)) kind ∧ exit.replayed = value.id ∧
      exit.left = s.observations ∧
      (point.leave C s).observationExits = withEnds id exit.left exit.start.observationExits) ∨
    (point.leave C s).observationExits =
      withEnds exit.replayed exit.left exit.start.observationExits := by
  cases point with
  | expr e kind =>
    by_cases hreturn : ∃ id value, e = .returnExpr id (some value)
    · obtain ⟨id, value, rfl⟩ := hreturn
      have hends := exit_ends hopen hmarks (C := C) kind (e := .returnExpr id (some value)) rfl
      cases haffine : affine with
      | true =>
        rw [haffine] at hexit
        simp only [exitAt, replayedExit, Bool.true_and, if_true] at hexit
        cases hdirect : isDirect C value with
        | true =>
          -- the ends are filed under the id of the `return`, and replayed by that of its value
          rw [hdirect] at hexit
          cases hexit
          exact .inl ⟨id, value, kind, rfl, hdirect, rfl, rfl, hopen.symm, hends⟩
        | false =>
          rw [hdirect] at hexit
          cases hexit
      | false =>
        rw [haffine] at hexit
        cases hexit
        exact .inr hends
    · have hother : exitAt C affine (.expr e kind) s scopes =
          (leftBy e scopes).map fun left => ⟨replayedExit affine e, left, exitStart C e s⟩ := by
        cases e with
        | returnExpr id value =>
          cases value with
          | none => rfl
          | some value => exact absurd ⟨id, value, rfl⟩ hreturn
        | _ => rfl
      have hreplayed : replayedExit affine e = e.id := by
        cases e with
        | returnExpr id value =>
          cases value with
          | none => rfl
          | some value => exact absurd ⟨id, value, rfl⟩ hreturn
        | _ => rfl
      rw [hother, hreplayed, Option.map_eq_some_iff] at hexit
      obtain ⟨left, hleft, rfl⟩ := hexit
      exact .inr (exit_ends hopen hmarks kind hleft)
  | armBody constructId kind body =>
    right
    cases kind with
    | returned =>
      cases body with
      | expr e =>
        obtain ⟨haffine, hdiverges, hends⟩ := leafExit_ends hopen hexit
        simp only [Bool.and_eq_true] at haffine
        rw [← hends]
        simp only [Point.leave, checkArmBody, after_bind, haffine.2, hdiverges, whenever]
        rfl
      | block b => cases hexit
    | read | other => cases hexit
  | block b kind =>
    right
    obtain ⟨id, statements, tail⟩ := b
    cases kind with
    | returned =>
      cases tail with
      | some tail =>
        simp only [exitAt] at hexit
        cases hended : ((checkStmts C statements).run s).1 with
        | true =>
          rw [hended] at hexit
          have hopen' : (after (checkStmts C statements) s).observations = scopes.flatten :=
            (balanced_leave C (.stmts statements) s).observations.trans hopen
          obtain ⟨-, hdiverges, hends⟩ := leafExit_ends hopen' hexit
          rw [← hends]
          simp only [Point.leave, checkBlockCtxInner, after_bind, hended, hdiverges, whenever]
          rfl
        | false =>
          rw [hended] at hexit
          cases hexit
      | none => cases hexit
    | read | other => cases tail <;> cases hexit
  | _ => cases hexit

end

/-- Functions that observe their files. -/
def observingContext : FlowContext := { fileContext with takeFlags := fun _ => some [false] }

/-- `inspect(a)` -/
def inspectFile : HirExpr := .call ⟨11⟩ (.function ⟨12⟩ ⟨5⟩) [.localVar ⟨2⟩ ⟨0⟩]

/-- `func f(take a: File) { observe a as v { … } }` -/
def observesFile (body : List HirStmt) : HirFunction where
  id := ⟨9⟩
  params := [⟨⟨0⟩, true⟩]
  body := .mk ⟨20⟩ [.observe ⟨0⟩ (.localVar ⟨1⟩ ⟨0⟩) ⟨1⟩ (.mk ⟨21⟩ body none)] none

/-- Where the body of the `observe` is walked from. -/
def observedStart (body : List HirStmt) : FlowState :=
  openScope (observeStart observingContext ⟨0⟩ (ofRoot ⟨0⟩) ⟨1⟩ ⟨21⟩
    (bodyStart observingContext (observesFile body)))

theorem visits_observesFile (st : HirStmt) (rest : List HirStmt) :
    Visits observingContext (observesFile (st :: rest)) (.stmt st) (observedStart (st :: rest)) :=
  ((((Relation.ReflTransGen.refl.tail .blockStmts).tail .firstStmt).tail (.observeBody rfl)).tail
    .blockStmts).tail .firstStmt

/-- `return inspect(a)` -/
def returnsNumber : HirExpr := .returnExpr ⟨13⟩ (some inspectFile)

/-- `return reopen(a)`, where the call opens another file. -/
def returnsFile : HirExpr :=
  .returnExpr ⟨13⟩ (some (.call ⟨3⟩ (.function ⟨12⟩ ⟨5⟩) [.localVar ⟨2⟩ ⟨0⟩]))

end Napitia.Resourceck

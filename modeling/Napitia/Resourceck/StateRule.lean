import Napitia.Resourceck.Visits

/-!
# Invariants of what is recorded of places

Invariants that nothing reported, recorded for an id, or pending bears on, and what the
rule of the walk says of the points below a point.
-/
namespace Napitia.Resourceck
open Nir Lower Stateful
open Hir (ExprId)
open Hir.Body

/-- States that differ only in what is reported, recorded for an id, or pending. -/
structure Same (s s' : FlowState) : Prop where
  states : s'.states = s.states
  observing : s'.observing = s.observing
  loopStack : s'.loopStack = s.loopStack
  deferScopes : s'.deferScopes = s.deferScopes
  observations : s'.observations = s.observations
  observationAliases : s'.observationAliases = s.observationAliases

instance : Std.Refl Same := ⟨fun _ => ⟨rfl, rfl, rfl, rfl, rfl, rfl⟩⟩

instance : IsTrans FlowState Same :=
  ⟨fun _ _ _ h h' => ⟨h'.states.trans h.states, h'.observing.trans h.observing,
    h'.loopStack.trans h.loopStack, h'.deferScopes.trans h.deferScopes,
    h'.observations.trans h.observations, h'.observationAliases.trans h.observationAliases⟩⟩

section
variable (C : FlowContext)

theorem same_diagnose (code : String) : Within Same (diagnose code) :=
  fun _ => ⟨rfl, rfl, rfl, rfl, rfl, rfl⟩

theorem same_recordConsume (id : ExprId) (info : ConsumeInfo) :
    Within Same (recordConsume id info) :=
  fun _ => ⟨rfl, rfl, rfl, rfl, rfl, rfl⟩

theorem same_pushCleanup (action : CleanupAction) : Within Same (pushCleanup action) :=
  fun _ => ⟨rfl, rfl, rfl, rfl, rfl, rfl⟩

theorem same_recordExit (id : ExprId) (marker : ℕ) : Within Same (recordExit C id marker) :=
  fun _ => ⟨rfl, rfl, rfl, rfl, rfl, rfl⟩

theorem same_truncateCleanup (marker : ℕ) : Within Same (truncateCleanup marker) :=
  fun _ => ⟨rfl, rfl, rfl, rfl, rfl, rfl⟩

theorem same_recordObservationExit (exit : ExprId) (marker : ℕ) :
    Within Same (recordObservationExit exit marker) := by
  refine .get_bind fun s => ?_
  rw [run_ite]
  split
  · exact ⟨rfl, rfl, rfl, rfl, rfl, rfl⟩
  · exact Within.pure _ s

theorem same_whenever {x : FlowM Unit} (c : Bool) (hx : Within Same x) :
    Within Same (whenever c x) := .ite hx (.pure _)

theorem same_registerDefer (expr : HirExpr) : Within Same (registerDefer C expr) := by
  unfold registerDefer
  split
  · split
    · exact .pure _
    · refine .ite (same_diagnose _) (.get_bind fun s => ?_)
      split
      · exact Within.pure _ s
      · exact ⟨rfl, rfl, rfl, rfl, rfl, rfl⟩
  · exact .pure _

end

theorem after_popLoop_nil {C : FlowContext} {s : FlowState} (h : s.loopStack = [])
    (entry : PlaceStates) (afterBase : Option PlaceStates) (bodyId : ExprId) (isLoop : Bool) :
    after (popLoop C entry afterBase bodyId isLoop) s = { s with states := entry } := by
  simp only [popLoop, swapStates, after, run_bind, run_get, h]
  rfl

/-! ### What one use touches -/

/-- Only places of one local are recorded anew. -/
structure Touches (root : LocalId) (s s' : FlowState) : Prop where
  states : ∀ key : LocalPlace, key.root ≠ root → s'.states.lookup key = s.states.lookup key
  observing : s'.observing = s.observing
  loopStack : s'.loopStack = s.loopStack
  deferScopes : s'.deferScopes = s.deferScopes
  observations : s'.observations = s.observations
  observationAliases : s'.observationAliases = s.observationAliases

section
variable {root : LocalId}

instance : Std.Refl (Touches root) := ⟨fun _ => ⟨fun _ _ => rfl, rfl, rfl, rfl, rfl, rfl⟩⟩

instance : IsTrans FlowState (Touches root) :=
  ⟨fun _ _ _ h h' => ⟨fun key hkey => (h'.states key hkey).trans (h.states key hkey),
    h'.observing.trans h.observing, h'.loopStack.trans h.loopStack,
    h'.deferScopes.trans h.deferScopes, h'.observations.trans h.observations,
    h'.observationAliases.trans h.observationAliases⟩⟩

theorem Same.touches {s s' : FlowState} (h : Same s s') : Touches root s s' :=
  ⟨fun _ _ => by rw [h.states], h.observing, h.loopStack, h.deferScopes, h.observations,
    h.observationAliases⟩

theorem touches_diagnose (code : String) : Within (Touches root) (diagnose code) :=
  fun s => (same_diagnose code s).touches

theorem touches_recordCleanup (id : ExprId) (actions : List CleanupAction) :
    Within (Touches root) (recordCleanup id actions) :=
  fun _ => ⟨fun _ _ => rfl, rfl, rfl, rfl, rfl, rfl⟩

theorem touches_recordConsume (id : ExprId) (info : ConsumeInfo) :
    Within (Touches root) (recordConsume id info) :=
  fun s => (same_recordConsume id info s).touches

theorem lookup_setPlaceState_of_root {states : PlaceStates} {place key : LocalPlace}
    {state : ResourceState} (h : key.root ≠ place.root) :
    (setPlaceState states place state).lookup key = states.lookup key := by
  have hne : key ≠ place := fun heq => h (congrArg Place.root heq)
  rw [setPlaceState, AList.lookup_insert_ne hne, AList.lookup_retain]
  simp only [h, ne_eq, not_false_eq_true, decide_true, Bool.true_or, if_true]

theorem touches_setPlace {place : LocalPlace} (h : place.root = root) (state : ResourceState) :
    Within (Touches root) (setPlace place state) := by
  intro s
  refine ⟨fun key hkey => ?_, rfl, rfl, rfl, rfl, rfl⟩
  exact lookup_setPlaceState_of_root (h ▸ hkey)

end

/-- What the rule of the walk asks for, of invariants that depend on nothing reported,
recorded for an id, or pending. -/
structure StateRule {ι : Type} (C : FlowContext) (I : ι → FlowState → Prop) (G : PlaceStates → Prop)
    (P : HirExpr → Prop) (Q : HirStmt → Prop) : Prop extends ScopeRule C I G P Q where
  bookkeeping : ∀ {i s s'}, I i s → Same s s' → I i s'
  removed : ∀ binding, Safe I (removeLocal binding)

namespace StateRule
variable {ι : Type} {C : FlowContext} {I : ι → FlowState → Prop} {G : PlaceStates → Prop}
  {P : HirExpr → Prop} {Q : HirStmt → Prop} {α : Type}

section
variable (rule : StateRule C I G P Q)
include rule

theorem same {x : FlowM α} (h : Within Same x) : Safe I x :=
  .intro fun _ s hs => rule.bookkeeping hs (h s)

theorem swapped {entry : PlaceStates} (h : G entry) : Maintains I G (swapStates entry) :=
  fun _ _ hs => ⟨rule.swap hs h, rule.states hs⟩

theorem blockCtx {x : FlowM Unit} (id : ExprId) (hx : Safe I x) : Safe I (blockCtx C id x) := by
  refine Maintains.get.bind fun s _ => (rule.scope hx).bind fun _ _ => ?_
  exact rule.same ((same_whenever _ (same_recordExit C id _)).bind fun _ => same_truncateCleanup _)

theorem armCtx {x : FlowM (ExprId × Bool × Bool)} {entry : PlaceStates} (locals : List LocalId)
    (hentry : G entry) (hx : Safe I x) :
    Maintains I (fun branch => G branch.1) (armCtx C entry locals x) := by
  refine (rule.swapped hentry).bind fun _ _ => Maintains.get.bind fun s _ => ?_
  refine Safe.bind (.forM fun binding _ => rule.bound binding) fun _ => hx.bind fun _ => ?_
  refine Safe.bind (rule.same (same_whenever _ (same_recordExit C _ _))) fun _ => ?_
  refine Safe.bind (rule.same (same_truncateCleanup _)) fun _ => ?_
  refine Safe.bind (.forM fun binding _ => rule.removed binding) fun _ => ?_
  refine Maintains.get.bind fun s hs => ?_
  obtain ⟨i, hi⟩ := hs
  exact .pure (rule.states hi)

theorem walkRule : WalkRule C I G P Q where
  toScopeRule := rule.toScopeRule
  diagnosed code := rule.same (same_diagnose code)
  consumed id info := rule.same (same_recordConsume id info)
  exited id marker := rule.same (same_recordExit C id marker)
  observationsEnded id marker := rule.same (same_recordObservationExit id marker)
  blockOf id _ hx := rule.blockCtx id hx
  arm locals _ hentry hx := rule.armCtx locals hentry hx

end

end StateRule

/-! ### The points below a point -/

section
variable (C : FlowContext) (G : PlaceStates → Prop)
  (P : HirExpr → Prop) (Q : HirStmt → Prop)

/-- What is asked of the parts of a body, asked of what a point walks. -/
def Point.Holds : Point → Prop
  | .expr e _ => e.Everywhere P Q
  | .args _ _ rest => ArgsEverywhere P Q rest
  | .fields rest => FieldsEverywhere P Q rest
  | .elseBranch entry _ branch => G entry ∧ ElseEverywhere P Q branch
  | .armBody _ _ body => body.Everywhere P Q
  | .matchArms _ entry _ rest => G entry ∧ MatchArmsEverywhere P Q rest
  | .handleArms _ entry _ rest => G entry ∧ HandleArmsEverywhere P Q rest
  | .block b _ => b.Everywhere P Q
  | .stmts rest => StmtsEverywhere P Q rest
  | .stmt st => st.Everywhere P Q

/-- A loop, or the observation of a place, is entered before anything below it is walked. -/
def Point.enter : Point → FlowState → FlowState
  | .stmt (.whileLoop _ _), s | .stmt (.loop _), s => after pushLoop s
  | .stmt (.observe id source aliased body), s =>
    match observedSource C source with
    | some place => observeStart C id place aliased body.id s
    | none => s
  | _, s => s

end

section
variable {ι : Type} {C : FlowContext} {I : ι → FlowState → Prop} {G : PlaceStates → Prop}
  {P : HirExpr → Prop} {Q : HirStmt → Prop} {s t u : FlowState}

theorem leads_after {α : Type} {x : FlowM α} (h : Safe I x) (s : FlowState) : Leads I s (after x s) :=
  fun i hi => (h i s hi).1

theorem Point.holds (hG : ∀ states, G states) (hP : ∀ e, P e) (hQ : ∀ st, Q st) (point : Point) :
    point.Holds G P Q := by
  cases point with
  | expr e kind => exact e.everywhere hP hQ
  | args callee index rest => exact argsEverywhere hP hQ rest
  | fields rest => exact fieldsEverywhere hP hQ rest
  | elseBranch entry kind branch => exact ⟨hG entry, elseEverywhere hP hQ branch⟩
  | armBody constructId kind body => exact body.everywhere hP hQ
  | matchArms constructId entry kind rest => exact ⟨hG entry, matchArmsEverywhere hP hQ rest⟩
  | handleArms constructId entry kind rest => exact ⟨hG entry, handleArmsEverywhere hP hQ rest⟩
  | block b kind => exact b.everywhere hP hQ
  | stmts rest => exact stmtsEverywhere hP hQ rest
  | stmt st => exact st.everywhere hP hQ

theorem WalkRule.leave (rule : WalkRule C I G P Q) {point : Point} (hp : point.Holds G P Q)
    (s : FlowState) : Leads I s (point.leave C s) := by
  cases point with
  | expr e kind => exact leads_after (rule.expr e kind hp) s
  | args callee index rest => exact leads_after (rule.argList callee index rest hp) s
  | fields rest => exact leads_after (rule.fieldList rest hp) s
  | elseBranch entry kind branch =>
    exact leads_after (rule.elseBranchOf entry kind branch hp.1 hp.2).safe s
  | armBody constructId kind body => exact leads_after (rule.armBody constructId kind body hp).safe s
  | matchArms constructId entry kind rest =>
    exact leads_after (rule.matchArms constructId entry kind rest hp.1 hp.2).safe s
  | handleArms constructId entry kind rest =>
    exact leads_after (rule.handleArms constructId entry kind rest hp.1 hp.2).safe s
  | block b kind => exact leads_after (rule.block b kind hp) s
  | stmts rest => exact leads_after (rule.stmts rest hp).safe s
  | stmt st => exact leads_after (rule.stmt st hp).safe s

/-- What a point comes down to: the parts it walks are as asked, and their states are
reached from where it was entered with the invariants kept, in a new scope or not. -/
theorem WalkRule.below (rule : WalkRule C I G P Q) {p q : Point × FlowState} (h : Below C p q)
    (hsome : ∃ i, I i (p.1.enter C p.2)) (hp : p.1.Holds G P Q) :
    q.1.Holds G P Q ∧ ∃ t, Leads I (p.1.enter C p.2) t ∧ (q.2 = t ∨ q.2 = openScope t) := by
  have hnoted : ∀ id info s, Leads I s (noted C id info s) := fun id info s =>
    leads_after (safe_whenever _ (rule.consumed id info)) s
  have hstart : ∀ id kind s, Leads I s (branchStart C id kind s) := fun id kind s =>
    leads_after (rule.compoundOrigin id kind) s
  have hswap : ∀ {entry : PlaceStates} {s}, G entry → Leads I s { s with states := entry } :=
    fun hentry _ hi => rule.swap hi hentry
  have harm : ∀ {entry : PlaceStates} (locals : List LocalId) {s}, G entry →
      Leads I s (armStart C entry locals s) := fun locals _ hentry =>
    (hswap hentry).trans (leads_after (.forM fun binding _ => rule.bound binding) _)
  obtain ⟨i, hi⟩ := hsome
  cases h with
  | unary | cast | tryExpr | raised | fieldBase =>
    unfold Point.Holds HirExpr.Everywhere at hp
    exact ⟨hp.2, _, .refl _, .inl rfl⟩
  | left =>
    unfold Point.Holds HirExpr.Everywhere at hp
    exact ⟨hp.2.1, _, .refl _, .inl rfl⟩
  | right =>
    unfold Point.Holds HirExpr.Everywhere at hp
    exact ⟨hp.2.2, _, leads_after (rule.expr _ _ hp.2.1) _, .inl rfl⟩
  | assignValue =>
    unfold Point.Holds HirExpr.Everywhere at hp
    exact ⟨hp.2.2, _, hnoted _ _ _, .inl rfl⟩
  | assignTarget =>
    unfold Point.Holds HirExpr.Everywhere at hp
    refine ⟨hp.2.1, _, ?_, .inl rfl⟩
    exact (hnoted _ _ _).trans (leads_after (rule.exprCtx _ _ (rule.expr _ _ hp.2.2)) _)
  | callee =>
    unfold Point.Holds HirExpr.Everywhere at hp
    exact ⟨hp.2.1, _, .refl _, .inl rfl⟩
  | callArgs =>
    unfold Point.Holds HirExpr.Everywhere at hp
    refine ⟨hp.2.2, _, ?_, .inl rfl⟩
    exact (leads_after (rule.expr _ _ hp.2.1) _).trans
      (leads_after (rule.aliases _ _) _)
  | condition =>
    unfold Point.Holds HirExpr.Everywhere at hp
    exact ⟨hp.2.1, _, .refl _, .inl rfl⟩
  | thenBranch hs =>
    unfold Point.Holds HirExpr.Everywhere at hp
    subst hs
    refine ⟨hp.2.2.1, _, ?_, .inr rfl⟩
    exact (leads_after (rule.expr _ _ hp.2.1) _).trans (hstart _ _ _)
  | @elseBranch id condition _ _ kind s _ _ _ hs hkind ht =>
    unfold Point.Holds HirExpr.Everywhere at hp
    subst hs hkind ht
    have hlead := (leads_after (rule.expr condition .read hp.2.1) s).trans (hstart id kind _)
    have hentry := rule.states (hlead i hi)
    refine ⟨⟨hentry, hp.2.2.2⟩, _, ?_, .inl rfl⟩
    exact hlead.trans ((leads_after (rule.blockOf _ (rule.block _ _ hp.2.2.1)) _).trans
      (hswap hentry))
  | scrutinee =>
    unfold Point.Holds HirExpr.Everywhere at hp
    exact ⟨hp.2.1, _, .refl _, .inl rfl⟩
  | @matchArms id scrutinee _ kind s _ hs =>
    unfold Point.Holds HirExpr.Everywhere at hp
    subst hs
    have hlead := (leads_after (rule.exprCtx scrutinee (scrutineeKind C scrutinee)
      (rule.expr _ (scrutineeKind C scrutinee) hp.2.1)) s).trans (hstart id kind _)
    exact ⟨⟨rule.states (hlead i hi), hp.2.2⟩, _, hlead, .inl rfl⟩
  | block =>
    unfold Point.Holds HirExpr.Everywhere at hp
    exact ⟨hp.2, _, .refl _, .inr rfl⟩
  | returned | broken =>
    unfold Point.Holds HirExpr.Everywhere ValueEverywhere at hp
    exact ⟨hp.2, _, .refl _, .inl rfl⟩
  | record =>
    unfold Point.Holds HirExpr.Everywhere at hp
    exact ⟨hp.2, _, .refl _, .inl rfl⟩
  | handled =>
    unfold Point.Holds HirExpr.Everywhere at hp
    exact ⟨hp.2.1, _, .refl _, .inl rfl⟩
  | @handleArms id operand _ kind s _ hs =>
    unfold Point.Holds HirExpr.Everywhere at hp
    subst hs
    have hlead := (leads_after (rule.expr operand .read hp.2.1) s).trans (hstart id kind _)
    exact ⟨⟨rule.states (hlead i hi), hp.2.2⟩, _, hlead, .inl rfl⟩
  | arg =>
    unfold Point.Holds ArgsEverywhere at hp
    exact ⟨hp.1, _, hnoted _ _ _, .inl rfl⟩
  | nextArg =>
    unfold Point.Holds ArgsEverywhere at hp
    refine ⟨hp.2, _, ?_, .inl rfl⟩
    exact (hnoted _ _ _).trans ((leads_after (rule.exprCtx _ _ (rule.expr _ _ hp.1)) _).trans
      (leads_after (safe_whenever _ (rule.leaked _)) _))
  | field =>
    unfold Point.Holds FieldsEverywhere at hp
    exact ⟨hp.1, _, .refl _, .inl rfl⟩
  | nextField =>
    unfold Point.Holds FieldsEverywhere at hp
    exact ⟨hp.2, _, leads_after (rule.exprCtx _ _ (rule.expr _ _ hp.1)) _, .inl rfl⟩
  | elseBlock =>
    unfold Point.Holds ElseEverywhere at hp
    exact ⟨hp.2, _, .refl _, .inr rfl⟩
  | elseIf =>
    unfold Point.Holds ElseEverywhere at hp
    exact ⟨hp.2, _, .refl _, .inl rfl⟩
  | armExpr =>
    unfold Point.Holds HirMatchArmBody.Everywhere at hp
    exact ⟨hp, _, .refl _, .inl rfl⟩
  | armBlock =>
    unfold Point.Holds HirMatchArmBody.Everywhere at hp
    exact ⟨hp, _, .refl _, .inr rfl⟩
  | matchArm =>
    unfold Point.Holds MatchArmsEverywhere at hp
    exact ⟨hp.2.1, _, harm _ hp.1, .inl rfl⟩
  | nextMatchArm =>
    unfold Point.Holds MatchArmsEverywhere at hp
    refine ⟨⟨hp.1, hp.2.2⟩, _, ?_, .inl rfl⟩
    exact leads_after (rule.arm (patternLocals _) hp.1 (rule.armBody _ _ _ hp.2.1)).safe _
  | handleArm =>
    unfold Point.Holds HandleArmsEverywhere at hp
    exact ⟨hp.2.1, _, harm _ hp.1, .inl rfl⟩
  | nextHandleArm =>
    unfold Point.Holds HandleArmsEverywhere at hp
    refine ⟨⟨hp.1, hp.2.2⟩, _, ?_, .inl rfl⟩
    exact leads_after (rule.arm (handleLocals _) hp.1 (rule.armBody _ _ _ hp.2.1)).safe _
  | blockStmts =>
    unfold Point.Holds HirBlock.Everywhere at hp
    exact ⟨hp.1, _, .refl _, .inl rfl⟩
  | blockTail =>
    unfold Point.Holds HirBlock.Everywhere ValueEverywhere at hp
    exact ⟨hp.2, _, leads_after (rule.stmts _ hp.1) _, .inl rfl⟩
  | firstStmt =>
    unfold Point.Holds StmtsEverywhere at hp
    exact ⟨hp.1, _, .refl _, .inl rfl⟩
  | nextStmt =>
    unfold Point.Holds StmtsEverywhere at hp
    exact ⟨hp.2, _, leads_after (rule.stmt _ hp.1) _, .inl rfl⟩
  | bound =>
    unfold Point.Holds HirStmt.Everywhere at hp
    exact ⟨hp.2, _, hnoted _ _ _, .inl rfl⟩
  | stmtExpr | deferred | dropped =>
    unfold Point.Holds HirStmt.Everywhere at hp
    exact ⟨hp.2, _, .refl _, .inl rfl⟩
  | whileCondition =>
    unfold Point.Holds HirStmt.Everywhere at hp
    exact ⟨hp.2.1, _, .refl _, .inl rfl⟩
  | whileBody =>
    unfold Point.Holds HirStmt.Everywhere at hp
    exact ⟨hp.2.2, _, leads_after (rule.expr _ _ hp.2.1) _, .inr rfl⟩
  | loopBody =>
    unfold Point.Holds HirStmt.Everywhere at hp
    exact ⟨hp.2, _, .refl _, .inr rfl⟩
  | observeSource hsource =>
    unfold Point.Holds HirStmt.Everywhere at hp
    simp only [Point.enter, hsource]
    exact ⟨hp.2.1, _, .refl _, .inl rfl⟩
  | observeRead hsource =>
    unfold Point.Holds HirStmt.Everywhere at hp
    simp only [Point.enter, hsource]
    exact ⟨hp.2.2, _, leads_after (rule.expr _ _ hp.2.1) _, .inr rfl⟩
  | observeBody hsource =>
    unfold Point.Holds HirStmt.Everywhere at hp
    simp only [Point.enter, hsource]
    exact ⟨hp.2.2, _, .refl _, .inr rfl⟩

end

end Napitia.Resourceck

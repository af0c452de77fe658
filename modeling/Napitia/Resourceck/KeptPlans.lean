import Napitia.Resourceck.PlanWalk

/-!
# The plans kept for a function

The last record under an id is the plan lowering takes for that exit. Where nothing is
owed between two records of one id, every exit of a function has the obligations of one
exit only, and the plan at the end of a block destroys places of that block alone.
-/
namespace Napitia.Resourceck
open Nir Lower Stateful Ledger
open Hir (ExprId)
open Hir.Body

/-- The locals every block of a function declares. -/
def declaredLocals (f : HirFunction) : List LocalId :=
  (functionAccounts f).flatMap fun account => account.2.getD []

/-- The ids of expressions and blocks and the locals of a function are given out once. -/
structure GivenOnce (f : HirFunction) : Prop where
  ids : Fresh (functionAccounts f)
  locals : (declaredLocals f).Nodup

instance (f : HirFunction) : Decidable (GivenOnce f) :=
  decidable_of_iff (Fresh (functionAccounts f) ∧ (declaredLocals f).Nodup)
    ⟨fun h => ⟨h.1, h.2⟩, fun h => ⟨h.ids, h.locals⟩⟩

/-- Every exit is recorded with the obligations of one exit: the plan at the end of a
block destroys what the block declares, and no local is destroyed by the plans of two. -/
structure PlansKept (C : FlowContext) (f : HirFunction) : Prop where
  single : Single (after (checkFunction C f) {}).cleanupEdges
  within : ∀ id locals actions, (id, some locals) ∈ functionAccounts f →
    (id, actions) ∈ (after (checkFunction C f) {}).cleanupEdges → DropsOnly locals actions
  apart : ∀ id locals id' locals' actions actions' place place',
    (id, some locals) ∈ functionAccounts f → (id', some locals') ∈ functionAccounts f → id ≠ id' →
    (id, actions) ∈ (after (checkFunction C f) {}).cleanupEdges →
    (id', actions') ∈ (after (checkFunction C f) {}).cleanupEdges →
    .drop place ∈ actions → .drop place' ∈ actions' → place.root ≠ place'.root

section
variable {C : FlowContext} {f : HirFunction}

theorem scopeWalked_checkParam (param : HirParam) (s : FlowState) :
    ScopeWalked [] [param.binding] s (after (checkParam C param) s) := by
  rw [checkParam, after_ite]
  split
  · rw [after_ite]
    split
    · refine ⟨[.drop (ofRoot param.binding)], ⟨rfl, [], rfl, .nil⟩, fun place hplace => ?_⟩
      cases List.mem_singleton.mp hplace
      simp [ofRoot]
    · exact ⟨[], ⟨rfl, [], rfl, .nil⟩, .nil _⟩
  · exact ⟨[], ⟨rfl, [], rfl, .nil⟩, .nil _⟩

theorem GivenOnce.apart (h : GivenOnce f) {id id' : ExprId} {locals locals' : List LocalId}
    {binding : LocalId} (hmem : (id, some locals) ∈ functionAccounts f)
    (hmem' : (id', some locals') ∈ functionAccounts f) (hin : binding ∈ locals)
    (hin' : binding ∈ locals') : id = id' := by
  have hsymm : Std.Symm (Function.onFun List.Disjoint fun account : Account => account.2.getD []) :=
    ⟨fun _ _ h => h.symm⟩
  by_contra hne
  have hdisjoint := (List.nodup_flatMap.mp h.locals).2.forall hmem hmem'
    fun heq => hne (congrArg Prod.fst heq)
  exact hdisjoint hin hin'

theorem walked_checkFunction (hids : Fresh (functionAccounts f))
    (hclears : Clears C (.block f.body .returned, bodyStart C f)) :
    Kept Fits (functionAccounts f) (after (checkFunction C f) {}).cleanupEdges := by
  obtain ⟨taken, htaken, hparams⟩ :=
    scopeWalked_forM (scopeWalked_checkParam (C := C)) f.params ({} : FlowState)
  obtain ⟨pushed, hbody, hdrops⟩ := walk_block f.body .returned _ hclears (fresh_parts hids)
  have hopen : Quiet (after (f.params.forM (checkParam C)) {}) (bodyStart C f) :=
    ⟨List.prefix_rfl, rfl, rfl⟩
  have hwalked := htaken.trans (hopen.then_walked hbody) (by simp [Apart])
  obtain ⟨new, hnew, hkept⟩ := hwalked.entries
  let last := after (deferScope (checkBlockCtxInner C f.body .returned))
    (after (f.params.forM (checkParam C)) {})
  have hlast : last.cleanupEdges = new := hnew.trans (List.append_nil _)
  have hfits : DropsOnly (f.params.map (·.binding) ++ stmtLocals f.body.statements)
      (snapshotCleanup C last 0) := by
    have hpending : last.pendingCleanup = pushed ++ taken :=
      hwalked.pending.trans (List.append_nil _)
    rw [snapshotCleanup_zero, hpending]
    exact ((hdrops.mono (List.subset_append_right _ _)).append
      (hparams.mono (List.subset_append_left _ _))).owed _
  have hend : after (checkFunction C f) {} =
      after (whenever (!C.diverges f.body.id) (recordExit C f.body.id 0)) last := rfl
  rw [hend]
  cases C.diverges f.body.id with
  | true =>
    have hall : Kept Fits (functionAccounts f) new := hkept.mono (List.subset_cons_self _ _)
    rw [← hlast] at hall
    exact hall
  | false =>
    have hsame : ∀ l ∈ [snapshotCleanup C last 0], ∀ l' ∈ [snapshotCleanup C last 0], l = l' := by
      simp
    have hown : ∀ l ∈ [snapshotCleanup C last 0],
        Fits (blockAccount (f.params.map (·.binding)) f.body).2 l := by
      intro l hl locals hlocals
      cases hlocals
      rw [List.mem_singleton.mp hl]
      exact hfits
    have hall := hkept.under (fresh_cons.mp hids).1 hsame hown
    rw [← hlast] at hall
    exact hall

/-- Where nothing is owed between two records of one id, the plans of a function are kept
apart. -/
theorem plansKept_of_sharedExitClear (hgiven : GivenOnce f)
    (hleaves : ∀ point s, Visits C f point s → LeavesNever C point)
    (hclear : ∀ point s, Visits C f point s → SharedExitClear C point s) : PlansKept C f := by
  have hkept := walked_checkFunction (C := C) hgiven.ids
    fun q hq => ⟨hclear q.1 q.2 hq, hleaves q.1 q.2 hq⟩
  have hwithin : ∀ id locals actions, (id, some locals) ∈ functionAccounts f →
      (id, actions) ∈ (after (checkFunction C f) {}).cleanupEdges → DropsOnly locals actions := by
    intro id locals actions hmem hrecorded
    exact hkept.fits_of_mem hgiven.ids hmem hrecorded locals rfl
  refine ⟨hkept.single, hwithin, ?_⟩
  intro id locals id' locals' actions actions' place place' hmem hmem' hne hrecorded hrecorded'
    hdrop hdrop' hroot
  have hin := hwithin id locals actions hmem hrecorded place hdrop
  have hin' := hwithin id' locals' actions' hmem' hrecorded' place' hdrop'
  rw [← hroot] at hin'
  exact hne (hgiven.apart hmem hmem' hin hin')

end

/-- Files that are made, closed and destroyed. -/
def fileContext : FlowContext where
  localTypes _ := some (.named ⟨0⟩)
  exprTypes id := if id.index < 10 then some (.named ⟨0⟩) else some .i64
  affineItems := [⟨0⟩]
  variantItems _ := false
  takeFlags item := if item = ⟨5⟩ then some [true] else some []
  affine :=
    { aggregateFieldTypes := fun _ => none
      declaredResource := fun item => item = ⟨0⟩
      itemTypeParams := fun _ => some [] }
  fieldProjections _ := none
  fuel := 3

/-- `close(a)` -/
def closeFile : HirExpr := .call ⟨11⟩ (.function ⟨12⟩ ⟨5⟩) [.localVar ⟨1⟩ ⟨0⟩]

/-- `{ 1 }` -/
def one : HirBlock := .mk ⟨21⟩ [] (some (.int ⟨23⟩ 1))

/-- `func f(take a: File) { close(a); { 1 } }` -/
def closesThenOne : HirFunction where
  id := ⟨9⟩
  params := [⟨⟨0⟩, true⟩]
  body := .mk ⟨20⟩ [.expr closeFile] (some (.block one))

theorem visits_closesThenOne {point : Point} {s : FlowState}
    (h : Visits fileContext closesThenOne point s) :
    SharedExitClear fileContext point s ∧ LeavesNever fileContext point := by
  have hpoints : ∀ q, Relation.ReflTransGen (Below fileContext)
      (.block closesThenOne.body .returned, bodyStart fileContext closesThenOne) q →
      q = (.block closesThenOne.body .returned, bodyStart fileContext closesThenOne) ∨
        q.1 ∈ [.stmts [.expr closeFile], .stmt (.expr closeFile), .expr closeFile .read,
          .expr (.function ⟨12⟩ ⟨5⟩) .read, .args (.function ⟨12⟩ ⟨5⟩) 0 [.localVar ⟨1⟩ ⟨0⟩],
          .expr (.localVar ⟨1⟩ ⟨0⟩) .other, .args (.function ⟨12⟩ ⟨5⟩) 1 [], .stmts [],
          .expr (.block one) .returned, .block one .returned, .expr (.int ⟨23⟩ 1) .returned] := by
    intro q hq
    induction hq with
    | refl => exact .inl rfl
    | @tail p q _ hstep ih =>
      right
      have harg : argKind fileContext (.function ⟨12⟩ ⟨5⟩) 0 = .other := by decide
      obtain ⟨point, s⟩ := p
      cases ih with
      | inl heq =>
        cases heq
        cases hstep <;> simp
      | inr hmem =>
        simp only [List.mem_cons, List.not_mem_nil, or_false] at hmem
        rcases hmem with rfl | rfl | rfl | rfl | rfl | rfl | rfl | rfl | rfl | rfl | rfl <;>
          cases hstep <;> simp [closeFile, one, harg]
  cases hpoints (point, s) h with
  | inl heq =>
    cases heq
    refine ⟨?_, trivial⟩
    intro _ _
    decide
  | inr hmem =>
    simp only [List.mem_cons, List.not_mem_nil, or_false] at hmem
    rcases hmem with rfl | rfl | rfl | rfl | rfl | rfl | rfl | rfl | rfl | rfl | rfl <;>
      first
      | exact ⟨trivial, trivial⟩
      | exact ⟨fun _ => trivial, trivial⟩

theorem plansKept_closesThenOne : PlansKept fileContext closesThenOne :=
  plansKept_of_sharedExitClear (by decide) (fun _ _ h => (visits_closesThenOne h).2)
    fun _ _ h => (visits_closesThenOne h).1

/-- `{ value b = make(); 1 }` -/
def makesThenOne : HirBlock :=
  .mk ⟨21⟩ [.binding ⟨1⟩ (.call ⟨1⟩ (.function ⟨22⟩ ⟨6⟩) [])] (some (.int ⟨23⟩ 1))

/-- `func f(take a: File) { { value b = make(); 1 } }` -/
def keepsThenOne : HirFunction where
  id := ⟨9⟩
  params := [⟨⟨0⟩, true⟩]
  body := .mk ⟨20⟩ [] (some (.block makesThenOne))

/-- The end of the inner block is recorded with its own local, and once more with the
parameter. -/
theorem plans_overwritten :
    ¬ ∀ (C : FlowContext) (f : HirFunction), GivenOnce f →
      (∀ point s, Visits C f point s → LeavesNever C point) → Accepts C f → PlansKept C f := by
  intro h
  have hleaves : ∀ point s, Visits fileContext keepsThenOne point s →
      LeavesNever fileContext point := by
    intro point s hvisits
    have hpoints : ∀ q, Relation.ReflTransGen (Below fileContext)
        (.block keepsThenOne.body .returned, bodyStart fileContext keepsThenOne) q →
        q.1 ∈ [.block keepsThenOne.body .returned, .stmts [], .expr (.block makesThenOne) .returned,
          .block makesThenOne .returned, .stmts makesThenOne.statements,
          .stmt (.binding ⟨1⟩ (.call ⟨1⟩ (.function ⟨22⟩ ⟨6⟩) [])),
          .expr (.call ⟨1⟩ (.function ⟨22⟩ ⟨6⟩) []) .other, .expr (.function ⟨22⟩ ⟨6⟩) .read,
          .args (.function ⟨22⟩ ⟨6⟩) 0 [], .expr (.int ⟨23⟩ 1) .returned] := by
      intro q hq
      induction hq with
      | refl => exact List.mem_cons_self
      | @tail p q _ hstep ih =>
        obtain ⟨point, s⟩ := p
        simp only [List.mem_cons, List.not_mem_nil, or_false] at ih
        rcases ih with rfl | rfl | rfl | rfl | rfl | rfl | rfl | rfl | rfl | rfl <;>
          cases hstep <;> simp [keepsThenOne, makesThenOne, HirBlock.statements]
    have hmem := hpoints (point, s) hvisits
    simp only [List.mem_cons, List.not_mem_nil, or_false] at hmem
    rcases hmem with rfl | rfl | rfl | rfl | rfl | rfl | rfl | rfl | rfl | rfl <;> trivial
  have hkept := h fileContext keepsThenOne (by decide) hleaves (by decide)
  have hsame := hkept.single ⟨21⟩ [.drop (ofRoot ⟨1⟩)] [.drop (ofRoot ⟨0⟩)] (by decide) (by decide)
  exact absurd hsame (by decide)

end Napitia.Resourceck

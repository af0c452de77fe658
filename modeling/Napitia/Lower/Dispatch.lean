import Napitia.Lower.Arms

/-!
# The edges of a fallible call

What `?` and `handle` lower behind a call: one exit for each raised variant, or the
dispatch of its cases, which lowers an arm where the first case reaches it.
-/
namespace Napitia.Lower
open Nir StateT
open Hir (ExprId HirHandleArmKind)
open Hir.Body

section
variable {B : BodyLowering} {retTy : Ty} {α β : Type} {a b c : FnBuilder} {r : Record}
  {pending : List ℕ} {t u : Trail} {x : Build LoweredExpr} {e operand : HirExpr}

/-- What the lowering of a fallible call leaves behind. -/
inductive Invokes (B : BodyLowering) (retTy : Ty) (operand : HirExpr) (mergeTy : Option Ty)
    (a c : FnBuilder) : Option Invocation → Prop
  | left : (exprTrail B retTy operand).ending.Fits false c.ended →
      Lands B a (exprTrail B retTy operand).toRecord c → Invokes B retTy operand mergeTy a c none
  | called {invocation : Invocation} : (exprTrail B retTy operand).ending = .value →
      Forks B retTy a (exprTrail B retTy operand).toRecord c invocation.targets →
      invocation.errBlocks.map (·.1) = raisedBy B operand →
      invocation.merge.isSome = mergeTy.isSome → Invokes B retTy operand mergeTy a c (some invocation)

/-- The parts of an operand are lowered by these. -/
def PartsOf (B : BodyLowering) (retTy : Ty) (operand : HirExpr) (parts : CallParts) : Prop :=
  ∀ id callee args, operand = .call id callee args →
    LowersTo B retTy parts.callee (exprTrail B retTy callee) ∧
      ArgsLower B retTy args parts.args (argsTrail B retTy args)

theorem invokes_lowerNoInvoke {v : Option Invocation} {xs : List (Build LoweredExpr)}
    {message : String} {mergeTy : Option Ty} (h : PartsLower B retTy xs (exprTrail B retTy operand))
    (ha : a.Ready retTy) (hrun : (lowerNoInvoke (collectValues xs) message).run a = .ok (v, c)) :
    Invokes B retTy operand mergeTy a c v := by
  obtain ⟨values, b, hvalues, hrest⟩ := run_bind_eq_ok.mp hrun
  have hparts := lowers_collectValues h ha hvalues
  cases values with
  | some values => exact absurd hrest run_throw_ne_ok
  | none =>
    obtain ⟨rfl, rfl⟩ := run_pure_eq_ok.mp hrest
    exact .left hparts.2 hparts.1

theorem invokes_lowerInvokeFunction {context : String} {id calleeId : ExprId} {item : ItemId}
    {args : List HirExpr} {xs : List (Build LoweredExpr)} {mergeTy : Option Ty}
    {v : Option Invocation} (h : ArgsLower B retTy args xs (argsTrail B retTy args))
    (ha : a.Ready retTy)
    (hrun : (lowerInvokeFunction B context id item args xs mergeTy).run a = .ok (v, c)) :
    Invokes B retTy (.call id (.function calleeId item) args) mergeTy a c v := by
  have htrail : exprTrail B retTy (.call id (.function calleeId item) args) =
      argsTrail B retTy args := by
    rw [exprTrail, exprTrail, nil_andThen]
  obtain ⟨sig, b₁, hsig, hrun⟩ := run_bind_eq_ok.mp hrun
  obtain ⟨typeArgs, b₂, htypeArgs, hrun⟩ := run_bind_eq_ok.mp hrun
  obtain ⟨hlength, hrun⟩ := run_guard_eq_ok.mp hrun
  obtain ⟨values, b₃, hvalues, hrest⟩ := run_bind_eq_ok.mp hrun
  rw [reads_orFail _ _ hsig] at htypeArgs
  rw [reads_resolveCallTypeArgs _ _ _ htypeArgs] at hvalues
  have hcount : sig.params.length = args.length := by omega
  have hparts := h.arguments "an invoke argument" (useSubst sig.typeParams typeArgs) hcount
  have hcollected := (ha.working B).piece (lowers_collectValues hparts) hvalues
  rw [record_nil_append] at hcollected
  cases values with
  | none =>
    obtain ⟨rfl, rfl⟩ := run_pure_eq_ok.mp hrest
    refine .left ?_ ?_
    · rw [htrail]
      exact hcollected.2
    · rw [htrail]
      exact hcollected.1.lands
  | some values =>
    obtain ⟨invocation, b₄, hemit, hpure⟩ := run_bind_eq_ok.mp hrest
    obtain ⟨rfl, rfl⟩ := run_pure_eq_ok.mp hpure
    have hending := hcollected.2.isValue_iff.mp rfl
    have hended : b₃.ended = false := by rw [hcollected.2.ended_eq, hending]; rfl
    have hworking : Working B retTy a (argsTrail B retTy args).toRecord b₃ [] :=
      ⟨hcollected.1, hended⟩
    have hinvoked := hworking.emitInvoke hemit
    refine .called ?_ ?_ ?_ hinvoked.2.2
    · rw [htrail]
      exact hending
    · rw [htrail]
      exact hinvoked.1
    · rw [raisedBy, hinvoked.2.1, Option.getD_some]

theorem invokes_lowerInvoke {context : String} {parts : CallParts} {mergeTy : Option Ty}
    {v : Option Invocation} (hx : LowersTo B retTy x (exprTrail B retTy operand))
    (hparts : PartsOf B retTy operand parts) (ha : a.Ready retTy)
    (hrun : (lowerInvoke B context operand x parts mergeTy).run a = .ok (v, c)) :
    Invokes B retTy operand mergeTy a c v := by
  have hwhole : PartsLower B retTy [x] (exprTrail B retTy operand) := by
    rw [← andThen_nil (exprTrail B retTy operand)]
    exact .cons hx .nil
  unfold lowerInvoke at hrun
  split at hrun
  · exact invokes_lowerInvokeFunction (hparts _ _ _ rfl).2 ha hrun
  · rename_i id callee args hother
    have hcallee := hparts _ _ _ rfl
    refine invokes_lowerNoInvoke ?_ ha hrun
    rw [exprTrail]
    exact .cons hcallee.1 hcallee.2.parts
  · exact invokes_lowerNoInvoke hwhole ha hrun

/-! ### `?` -/


theorem Forks.propagateEach {id : ExprId} {errs : List (ItemId × ValueId × BlockId)} {v : Unit}
    (h : Forks B retTy a r b (errs.map (·.2.2.index) ++ pending))
    (hrun : (errs.forM (propagate B id)).run b = .ok (v, c)) :
    Forks B retTy a (r ++ { exits := errs.map fun _ => id }) c pending := by
  induction errs generalizing b r with
  | nil =>
    obtain ⟨-, rfl⟩ := run_pure_eq_ok.mp hrun
    rw [List.map_nil, record_append_nil]
    exact h
  | cons err errs ih =>
    obtain ⟨_, b₁, hfirst, hrest⟩ := run_bind_eq_ok.mp hrun
    obtain ⟨layout, b₂, hlayout, hfirst⟩ := run_bind_eq_ok.mp hfirst
    obtain ⟨_, b₃, hturn, hfirst⟩ := run_bind_eq_ok.mp hfirst
    obtain ⟨loaded, b₄, hload, hfirst⟩ := run_bind_eq_ok.mp hfirst
    obtain ⟨_, b₅, hcleanup, hclose⟩ := run_bind_eq_ok.mp hfirst
    rw [reads_orFail _ _ hlayout] at hturn
    have hloaded := (h.enter hturn).straight (straight_pushValue fun _ => rfl) hload
    have hcleaned := hloaded.piece (lowers_emitCheckedCleanup id) hcleanup
    have hworking : Working B retTy a _ b₅ _ := ⟨hcleaned.1, hcleaned.2⟩
    have hdone := ih (hworking.close hclose) hrest
    rw [record_append_assoc] at hdone
    exact hdone

theorem lowersTo_lowerTry {context : String} {parts : CallParts} (id : ExprId)
    (hx : LowersTo B retTy x (exprTrail B retTy operand)) (hparts : PartsOf B retTy operand parts) :
    LowersTo B retTy (lowerTry B id (lowerInvoke B context operand x parts none))
      (exprTrail B retTy (.tryExpr id operand)) := by
  intro a c v ha hrun
  obtain ⟨invoked, b, hinvoke, hrest⟩ := run_bind_eq_ok.mp hrun
  rw [exprTrail]
  cases invokes_lowerInvoke hx hparts ha hinvoke with
  | left hfits hlands =>
    obtain ⟨rfl, rfl⟩ := run_pure_eq_ok.mp hrest
    rw [andThen_gone hfits.ne_value]
    exact ⟨hlands, hfits⟩
  | @called invocation hending hforks hraised hmerge =>
    obtain ⟨_, b₁, heach, hrest⟩ := run_bind_eq_ok.mp hrest
    obtain ⟨_, b₂, hturn, hload⟩ := run_bind_eq_ok.mp hrest
    have hnone : invocation.merge = none := by simpa using hmerge
    have htargets : invocation.targets.Perm
        (invocation.errBlocks.map (·.2.2.index) ++ [invocation.okTarget.index]) := by
      rw [Invocation.targets, hnone]
      exact List.perm_append_comm
    have heachForks := (hforks.perm htargets).propagateEach heach
    have hdone := (heachForks.enter hturn).done (straight_pushValue fun _ => rfl).lowersTo hload
    rw [andThen_value hending, ← hraised, List.map_map]
    exact hdone

/-! ### `handle` -/

@[simp] theorem record_all_append (ts us : List Trail) :
    (Trail.all (ts ++ us)).toRecord = (Trail.all ts).toRecord ++ (Trail.all us).toRecord := by
  induction ts with
  | nil => rfl
  | cons t ts ih => rw [List.cons_append, record_all_cons, record_all_cons, ih, record_append_assoc]

theorem straight_bindArmPattern (pattern : HirPattern) (value : ValueId) (ty : Ty) :
    Straight B retTy (bindArmPattern B pattern value ty) := by
  unfold bindArmPattern
  split
  · exact straight_bindLocal _ _
  · exact .ite (fun _ => straight_pushInstruction rfl) fun _ => straight_pure _
  · exact lowers_throw _

theorem straight_bindPayload (loaded : ValueId) (variant : ItemId) (case : ℕ)
    (args : List HirPattern) (payload : List Ty) :
    Straight B retTy (bindPayload B loaded variant case args payload) := by
  apply straight_forM
  intro position
  apply (straight_pushValue fun _ => rfl).bind
  intro value
  exact straight_bindArmPattern _ _ _

theorem lowersStmt_lowerFailureArm {arm : LoweredArm} (loaded : ValueId) (variant : ItemId)
    (case : ℕ) (payload : List Ty) (h : LowersStmt B retTy arm.body t) :
    LowersStmt B retTy (lowerFailureArm B loaded variant case payload arm) t := by
  unfold lowerFailureArm
  split
  · exact lowers_throw_bind _
  · exact h
  · apply Lowers.ite
    · intro _
      exact lowers_throw_bind _
    · intro _
      exact (straight_bindPayload _ _ _ _ _).bind fun _ => h

/-- The arms that are reached first by these cases, seen from where others have been. -/
theorem enteredArms_append (kinds : List HirHandleArmKind) (seen : List ℕ)
    (keys others : List (ItemId × ℕ)) :
    enteredArms kinds seen (keys ++ others) = enteredArms kinds seen keys ++
      enteredArms kinds ((enteredArms kinds seen keys).reverse ++ seen) others := by
  induction keys generalizing seen with
  | nil => rfl
  | cons key keys ih =>
    simp only [List.cons_append, enteredArms]
    cases handlerOf kinds key with
    | none => exact ih seen
    | some index =>
      by_cases hseen : index ∈ seen
      · simp only [if_pos hseen]
        exact ih seen
      · simp only [if_neg hseen]
        rw [ih, List.cons_append, List.reverse_cons, List.append_assoc]
        rfl

theorem lookup_eq_none_iff {blocks : ArmBlocks} {index : ℕ} :
    List.lookup index blocks = none ↔ index ∉ blocks.map (·.1) := by
  induction blocks with
  | nil => simp
  | cons entry blocks ih =>
    rw [List.lookup_cons, List.map_cons, List.mem_cons]
    by_cases heq : index = entry.1
    · simp [heq]
    · have hne : (index == entry.1) = false := by simpa using heq
      rw [hne, ih]
      simp [heq]

/-- The lowered arms of a `handle`, with their trails. -/
structure ArmsOf (B : BodyLowering) (retTy : Ty) (kinds : List HirHandleArmKind)
    (trails : List Trail) (arms : List LoweredArm) : Prop where
  kinds : arms.map (·.kind) = kinds
  trails : List.Forall₂ (fun arm t => LowersStmt B retTy arm.body t) arms trails

section
variable {kinds : List HirHandleArmKind} {trails : List Trail} {arms : List LoweredArm}
  {dispatch : BlockId} {loaded : ValueId} {variant : ItemId}

/-- The trails of the arms these cases reach first. -/
def enteredTrail (kinds : List HirHandleArmKind) (trails : List Trail) (seen : List ℕ)
    (keys : List (ItemId × ℕ)) : Trail :=
  .all ((enteredArms kinds seen keys).map (trails.getD · {}))

theorem ArmsOf.at (h : ArmsOf B retTy kinds trails arms) {index : ℕ} {arm : LoweredArm}
    (harm : arms[index]? = some arm) : LowersStmt B retTy arm.body (trails.getD index {}) := by
  have htrails := h.trails
  clear h
  induction htrails generalizing index with
  | nil => cases harm
  | cons hfirst _ ih =>
    cases index with
    | zero =>
      cases harm
      exact hfirst
    | succ index => exact ih harm

theorem Working.dispatchCase {blocks : ArmBlocks} {case : ℕ} {payload : List Ty}
    {result : BlockId × ArmBlocks} (hworking : Working B retTy a r b pending)
    (harms : ArmsOf B retTy kinds trails arms) (hcurrent : b.current = dispatch)
    (hnew : a.blocks.length ≤ dispatch.index)
    (hrun : (dispatchCase B arms dispatch loaded variant blocks case payload).run b =
      .ok (result, c)) :
    Working B retTy a
        (r ++ (enteredTrail kinds trails (blocks.map (·.1)) [(variant, case)]).toRecord) c pending ∧
      c.current = dispatch ∧ result.2.map (·.1) =
        (enteredArms kinds (blocks.map (·.1)) [(variant, case)]).reverse ++ blocks.map (·.1) := by
  obtain ⟨index, b₁, hindex, hrun⟩ := run_bind_eq_ok.mp hrun
  have hhandler : handlerOf kinds (variant, case) = some index ∧ b₁ = b := by
    rw [harms.kinds] at hindex
    cases hfound : handlerOf kinds (variant, case) with
    | none =>
      rw [hfound] at hindex
      exact absurd hindex run_throw_ne_ok
    | some found =>
      rw [hfound] at hindex
      have hpure := run_pure_eq_ok.mp hindex
      rw [hpure.1, hpure.2]
      exact ⟨rfl, rfl⟩
  rw [hhandler.2] at hrun
  have hentered : enteredArms kinds (blocks.map (·.1)) [(variant, case)] =
      if index ∈ blocks.map (·.1) then [] else [index] := by
    simp only [enteredArms, hhandler.1]
  unfold enteredTrail
  rw [hentered]
  cases hlookup : List.lookup index blocks with
  | some block =>
    have hseen : index ∈ blocks.map (·.1) := by
      by_contra hnot
      rw [lookup_eq_none_iff.mpr hnot] at hlookup
      cases hlookup
    rw [hlookup] at hrun
    obtain ⟨rfl, rfl⟩ := run_pure_eq_ok.mp hrun
    rw [if_pos hseen, List.map_nil, record_all_nil, record_append_nil]
    exact ⟨hworking, hcurrent, rfl⟩
  | none =>
    have hfresh := lookup_eq_none_iff.mp hlookup
    rw [hlookup] at hrun
    obtain ⟨block, b₂, hblock, hrun⟩ := run_bind_eq_ok.mp hrun
    obtain ⟨_, b₃, hturn, hrun⟩ := run_bind_eq_ok.mp hrun
    obtain ⟨arm, b₄, harm, hrun⟩ := run_bind_eq_ok.mp hrun
    obtain ⟨_, b₅, hbody, hrun⟩ := run_bind_eq_ok.mp hrun
    obtain ⟨_, b₆, hback, hpure⟩ := run_bind_eq_ok.mp hrun
    obtain ⟨rfl, rfl⟩ := run_pure_eq_ok.mp hpure
    have hopened := hworking.openOne hblock
    have hsame : b₂.current = dispatch := by
      cases hblock
      exact hcurrent
    have hinner := hopened.leave (by rw [hsame]; exact hnew)
      (List.mem_append_right _ List.mem_cons_self) hturn
    have hat : arms[index]? = some arm ∧ b₄ = b₃ := by
      unfold armAt at harm
      cases hfound : arms[index]? with
      | none =>
        rw [hfound] at harm
        exact absurd harm run_throw_ne_ok
      | some found =>
        rw [hfound] at harm
        have hpure := run_pure_eq_ok.mp harm
        rw [hpure.1, hpure.2]
        exact ⟨rfl, rfl⟩
    rw [hat.2] at hbody
    have hdone := hinner.piece
      (lowersStmt_lowerFailureArm loaded variant case payload (harms.at hat.1)) hbody
    have hnot : block.index ∉ pending := fun hmem =>
      (List.nodup_append.mp hopened.distinct).2.2 _ hmem _ List.mem_cons_self rfl
    have herase : (pending ++ [block.index]).erase block.index = pending := by
      rw [List.erase_append_right _ hnot, List.erase_cons_head, List.append_nil]
    rw [herase, hsame] at hdone
    have hreturned := hdone.1.enter hback
    rw [if_neg hfresh]
    refine ⟨?_, ?_, rfl⟩
    · rw [List.map_cons, List.map_nil, record_all_cons, record_all_nil, record_append_nil]
      exact hreturned
    · cases hback
      rfl

theorem record_enteredTrail_append (seen : List ℕ) (keys others : List (ItemId × ℕ)) :
    (enteredTrail kinds trails seen (keys ++ others)).toRecord =
      (enteredTrail kinds trails seen keys).toRecord ++
        (enteredTrail kinds trails ((enteredArms kinds seen keys).reverse ++ seen)
          others).toRecord := by
  unfold enteredTrail
  rw [enteredArms_append, List.map_append, record_all_append]

theorem Working.dispatchCases {blocks : ArmBlocks} {cases : List (List Ty × ℕ)}
    {result : List BlockId × ArmBlocks} (hworking : Working B retTy a r b pending)
    (harms : ArmsOf B retTy kinds trails arms) (hcurrent : b.current = dispatch)
    (hnew : a.blocks.length ≤ dispatch.index)
    (hrun : (dispatchCases B arms dispatch loaded variant blocks cases).run b = .ok (result, c)) :
    Working B retTy a (r ++ (enteredTrail kinds trails (blocks.map (·.1))
        (cases.map fun case => (variant, case.2))).toRecord) c pending ∧
      result.2.map (·.1) = (enteredArms kinds (blocks.map (·.1))
        (cases.map fun case => (variant, case.2))).reverse ++ blocks.map (·.1) := by
  induction cases generalizing b r blocks result with
  | nil =>
    obtain ⟨rfl, rfl⟩ := run_pure_eq_ok.mp hrun
    refine ⟨?_, rfl⟩
    rw [List.map_nil, enteredTrail, enteredArms, List.map_nil, record_all_nil, record_append_nil]
    exact hworking
  | cons case cases ih =>
    obtain ⟨payload, case⟩ := case
    obtain ⟨entered, b₁, hentered, hrun⟩ := run_bind_eq_ok.mp hrun
    obtain ⟨others, b₂, hothers, hpure⟩ := run_bind_eq_ok.mp hrun
    obtain ⟨rfl, rfl⟩ := run_pure_eq_ok.mp hpure
    have hfirst := hworking.dispatchCase harms hcurrent hnew hentered
    have hrest := ih hfirst.1 hfirst.2.1 hothers
    have hsplit : ((payload, case) :: cases).map (fun case => (variant, case.2)) =
        [(variant, case)] ++ cases.map fun case => (variant, case.2) := rfl
    rw [hfirst.2.2, record_append_assoc, ← record_enteredTrail_append, ← hsplit] at hrest
    refine ⟨hrest.1, ?_⟩
    rw [hrest.2, hsplit, enteredArms_append, List.reverse_append, List.append_assoc]

theorem Forks.dispatchVariants {blocks : ArmBlocks} {errs : List (ItemId × ValueId × BlockId)}
    {v : Unit} (h : Forks B retTy a r b (errs.map (·.2.2.index) ++ pending))
    (harms : ArmsOf B retTy kinds trails arms)
    (hrun : (dispatchVariants B arms blocks errs).run b = .ok (v, c)) :
    Forks B retTy a (r ++ (enteredTrail kinds trails (blocks.map (·.1))
      (raisedCases B (errs.map (·.1)))).toRecord) c pending := by
  induction errs generalizing b r blocks with
  | nil =>
    obtain ⟨-, rfl⟩ := run_pure_eq_ok.mp hrun
    rw [List.map_nil, raisedCases, List.flatMap_nil, enteredTrail, enteredArms, List.map_nil,
      record_all_nil, record_append_nil]
    exact h
  | cons err errs ih =>
    obtain ⟨variant, slot, dispatch⟩ := err
    obtain ⟨layout, b₁, hlayout, hrun⟩ := run_bind_eq_ok.mp hrun
    obtain ⟨_, b₂, hturn, hrun⟩ := run_bind_eq_ok.mp hrun
    obtain ⟨loaded, b₃, hload, hrun⟩ := run_bind_eq_ok.mp hrun
    obtain ⟨targets, b₄, htargets, hrun⟩ := run_bind_eq_ok.mp hrun
    obtain ⟨_, b₅, hclose, hrest⟩ := run_bind_eq_ok.mp hrun
    have hfound : B.module.findVariant variant = some layout := by
      cases hentry : B.module.findVariant variant with
      | none =>
        rw [hentry] at hlayout
        exact absurd hlayout run_throw_ne_ok
      | some entry =>
        rw [hentry] at hlayout
        rw [(run_pure_eq_ok.mp hlayout).1]
    rw [reads_orFail _ _ hlayout] at hturn
    have hnew := h.new dispatch.index List.mem_cons_self
    have hloaded := (h.enter hturn).straight (straight_pushValue fun _ => rfl) hload
    have hcurrent : b₃.current = dispatch := by
      cases hturn
      cases hload
      rfl
    have hcases := hloaded.dispatchCases harms hcurrent hnew htargets
    have hdone := ih (hcases.1.close hclose) hrest
    have hkeys : ((layout.cases.map (·.payload)).zipIdx.map fun case => (variant, case.2)) =
        (List.range (((B.module.findVariant variant).map (·.cases.length)).getD 0)).map
          (variant, ·) := by
      have hindices : (layout.cases.map (·.payload)).zipIdx.map (·.2) =
          List.range layout.cases.length := by
        rw [List.zipIdx_map_snd, List.length_map, List.range_eq_range']
      rw [hfound, Option.map_some, Option.getD_some, ← hindices, List.map_map]
      rfl
    have hsplit : raisedCases B (((variant, slot, dispatch) :: errs).map (·.1)) =
        ((layout.cases.map (·.payload)).zipIdx.map fun case => (variant, case.2)) ++
          raisedCases B (errs.map (·.1)) := by
      rw [hkeys, List.map_cons, raisedCases, List.flatMap_cons]
      rfl
    rw [hcases.2, record_append_assoc, ← record_enteredTrail_append, ← hsplit] at hdone
    exact hdone

theorem ArmsOf.success {arm : LoweredArm} (harms : ArmsOf B retTy kinds trails arms)
    (harm : arms.find? (·.kind.isSuccess) = some arm) :
    ∃ t, ((kinds.zip trails).find? (·.1.isSuccess)).map (·.2) = some t ∧
      LowersStmt B retTy arm.body t := by
  obtain ⟨hkinds, htrails⟩ := harms
  subst hkinds
  induction htrails with
  | nil => cases harm
  | @cons first t arms trails hfirst _ ih =>
    rw [List.map_cons, List.zip_cons_cons]
    cases hsuccess : first.kind.isSuccess with
    | true =>
      simp only [List.find?_cons, hsuccess] at harm ⊢
      cases harm
      exact ⟨t, rfl, hfirst⟩
    | false =>
      simp only [List.find?_cons, hsuccess] at harm ⊢
      exact ih harm

theorem Forks.lowerSuccessArm {invocation : Invocation} {v : Unit}
    (h : Forks B retTy a r b (invocation.okTarget.index :: pending))
    (harms : ArmsOf B retTy kinds trails arms)
    (hrun : (lowerSuccessArm B arms invocation).run b = .ok (v, c)) :
    ∃ t, ((kinds.zip trails).find? (·.1.isSuccess)).map (·.2) = some t ∧
      Forks B retTy a (r ++ t.toRecord) c pending ∧ c.ended = decide (t.ending = .closed) := by
  obtain ⟨_, b₁, hturn, hrun⟩ := run_bind_eq_ok.mp hrun
  obtain ⟨okValue, b₂, hload, hrun⟩ := run_bind_eq_ok.mp hrun
  obtain ⟨arm, b₃, harm, hrun⟩ := run_bind_eq_ok.mp hrun
  have hfound : arms.find? (·.kind.isSuccess) = some arm := by
    cases hentry : arms.find? (·.kind.isSuccess) with
    | none =>
      rw [hentry] at harm
      exact absurd harm run_throw_ne_ok
    | some entry =>
      rw [hentry] at harm
      rw [(run_pure_eq_ok.mp harm).1]
  rw [reads_orFail _ _ harm] at hrun
  obtain ⟨t, ht, hbody⟩ := harms.success hfound
  have hloaded := (h.enter hturn).straight (straight_pushValue fun _ => rfl) hload
  refine ⟨t, ht, hloaded.stmt ?_ hrun⟩
  split
  · exact (straight_bindArmPattern _ _ _).bind fun _ => hbody
  · exact hbody

theorem Forks.lowerHandleDispatch {invocation : Invocation} {v : Unit}
    (h : Forks B retTy a r b invocation.targets) (harms : ArmsOf B retTy kinds trails arms)
    (hraised : invocation.errBlocks.map (·.1) = raisedBy B operand)
    (hrun : (lowerHandleDispatch B arms invocation).run b = .ok (v, c)) :
    Forks B retTy a (r ++ (dispatchTrail B operand kinds trails).toRecord) c
        (invocation.merge.map (·.2.index)).toList ∧
      c.ended = decide ((dispatchTrail B operand kinds trails).ending = .closed) := by
  obtain ⟨_, b₁, hvariants, hsuccess⟩ := run_bind_eq_ok.mp hrun
  have htargets : invocation.targets.Perm (invocation.errBlocks.map (·.2.2.index) ++
      (invocation.okTarget.index :: (invocation.merge.map (·.2.index)).toList)) := by
    rw [Invocation.targets]
    exact List.perm_append_comm.trans (List.Perm.append_left _ List.perm_append_comm)
  have hfailures := (h.perm htargets).dispatchVariants harms hvariants
  obtain ⟨t, ht, hforks, hended⟩ := hfailures.lowerSuccessArm harms hsuccess
  rw [hraised, List.map_nil] at hforks
  rw [dispatchTrail, ht, Option.toList_some]
  refine ⟨?_, ?_⟩
  · rw [record_all_append]
    rw [record_all_cons, record_all_nil, record_append_nil, ← record_append_assoc]
    exact hforks
  · rw [hended]
    simp [Trail.all]

theorem armsOf_armsFor {never : Bool} {sink : ArmSink} {bodies : List (ArmSink → Build Unit)}
    (h : BodiesLower B retTy never bodies trails) (hsink : sink.merged.isNone = never)
    (hlength : kinds.length = bodies.length) :
    ArmsOf B retTy kinds trails (armsFor sink kinds bodies) where
  kinds := by
    unfold armsFor
    rw [List.map_map]
    exact List.map_fst_zip hlength.le
  trails := by
    unfold armsFor
    induction h generalizing kinds with
    | nil => simp
    | cons hfirst _ ih =>
      obtain ⟨kind, kinds, rfl⟩ := List.exists_cons_of_length_eq_add_one hlength
      exact .cons (hfirst sink hsink) (ih (Nat.succ.inj hlength))

/-- A `handle` whose values join after it, or one that none of its arms goes on behind. -/
theorem lowersTo_lowerHandle {context : String} {parts : CallParts} {never : Bool}
    {bodies : List (ArmSink → Build Unit)} {resultTy : Ty}
    (hx : LowersTo B retTy x (exprTrail B retTy operand)) (hparts : PartsOf B retTy operand parts)
    (h : BodiesLower B retTy never bodies trails) (hnever : never = decide (resultTy = .never))
    (hlength : kinds.length = bodies.length) :
    LowersTo B retTy (lowerHandle B (lowerInvoke B context operand x parts) kinds bodies resultTy)
      ((exprTrail B retTy operand).andThen
        (afterParts never (dispatchTrail B operand kinds trails))) := by
  intro a c v ha hrun
  obtain ⟨invoked, b, hinvoke, hrest⟩ := run_bind_eq_ok.mp hrun
  cases invokes_lowerInvoke hx hparts ha hinvoke with
  | left hfits hlands =>
    obtain ⟨rfl, rfl⟩ := run_pure_eq_ok.mp hrest
    rw [andThen_gone hfits.ne_value]
    exact ⟨hlands, hfits⟩
  | @called invocation hending hforks hraised hmerge =>
    rw [andThen_value hending]
    cases hcase : invocation.merge with
    | none =>
      have hty : resultTy = .never := by
        by_contra hne
        rw [if_neg hne, hcase] at hmerge
        cases hmerge
      obtain rfl : never = true := by rw [hnever, decide_eq_true hty]
      simp only [hcase] at hrest
      obtain ⟨_, b₁, hdispatch, hpure⟩ := run_bind_eq_ok.mp hrest
      obtain ⟨rfl, rfl⟩ := run_pure_eq_ok.mp hpure
      have hdone := hforks.lowerHandleDispatch (armsOf_armsFor h rfl hlength) hraised hdispatch
      refine ⟨hdone.1.lands, ?_⟩
      rw [hdone.2]
      exact Ending.lost_fits _
    | some target =>
      have hty : resultTy ≠ .never := by
        intro heq
        rw [if_pos heq, hcase] at hmerge
        cases hmerge
      obtain rfl : never = false := by rw [hnever, decide_eq_false hty]
      simp only [hcase] at hrest
      obtain ⟨_, b₁, hdispatch, hrest⟩ := run_bind_eq_ok.mp hrest
      obtain ⟨_, b₂, hturn, hload⟩ := run_bind_eq_ok.mp hrest
      have hsink : (ArmSink.merge target.1 target.2).merged.isNone = false := rfl
      have hdone := hforks.lowerHandleDispatch (armsOf_armsFor h hsink hlength) hraised hdispatch
      rw [hcase] at hdone
      exact (hdone.1.enter hturn).done (straight_pushValue fun _ => rfl).lowersTo hload

theorem lowersTo_lowerHandleIntoReturnSink {context : String} {parts : CallParts}
    {bodies : List (ArmSink → Build Unit)}
    (hx : LowersTo B retTy x (exprTrail B retTy operand)) (hparts : PartsOf B retTy operand parts)
    (h : BodiesLower B retTy true bodies trails) (hlength : kinds.length = bodies.length) :
    LowersTo B retTy
      (lowerHandleIntoReturnSink B (lowerInvoke B context operand x parts none) kinds bodies)
      ((exprTrail B retTy operand).andThen (dispatchTrail B operand kinds trails).lost) := by
  intro a c v ha hrun
  obtain ⟨invoked, b, hinvoke, hrest⟩ := run_bind_eq_ok.mp hrun
  cases invokes_lowerInvoke hx hparts ha hinvoke with
  | left hfits hlands =>
    obtain ⟨rfl, rfl⟩ := run_pure_eq_ok.mp hrest
    rw [andThen_gone hfits.ne_value]
    exact ⟨hlands, hfits⟩
  | called hending hforks hraised hmerge =>
    obtain ⟨_, b₁, hdispatch, hpure⟩ := run_bind_eq_ok.mp hrest
    obtain ⟨rfl, rfl⟩ := run_pure_eq_ok.mp hpure
    have hsink : ArmSink.finish.merged.isNone = true := rfl
    have hdone := hforks.lowerHandleDispatch (armsOf_armsFor h hsink hlength) hraised hdispatch
    rw [andThen_value hending]
    refine ⟨hdone.1.lands, ?_⟩
    rw [hdone.2]
    exact Ending.lost_fits _

end

end

end Napitia.Lower

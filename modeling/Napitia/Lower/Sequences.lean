import Napitia.Lower.Pieces

/-!
# Constructs that evaluate one part after the other

Each construct follows the trails of its parts up to the first that leaves, and then the
exits of its own.
-/
namespace Napitia.Lower
open Nir StateT
open Hir (ExprId)
open Hir.Body

section
variable {B : BodyLowering} {retTy : Ty} {α β : Type} {t u : Trail} {x y : Build LoweredExpr}
  {xs : List (Build LoweredExpr)} {args : List HirExpr} {e : HirExpr} {r : Record}
  {P : α → Bool → Prop} {Q : β → Bool → Prop}

/-! ### Lists of parts -/

inductive PartsLower (B : BodyLowering) (retTy : Ty) : List (Build LoweredExpr) → Trail → Prop
  | nil : PartsLower B retTy [] {}
  | cons {x : Build LoweredExpr} {xs : List (Build LoweredExpr)} {t u : Trail} :
      LowersTo B retTy x t → PartsLower B retTy xs u → PartsLower B retTy (x :: xs) (t.andThen u)

/-- Expressions with their own lowerings. -/
inductive ArgsLower (B : BodyLowering) (retTy : Ty) :
    List HirExpr → List (Build LoweredExpr) → Trail → Prop
  | nil : ArgsLower B retTy [] [] {}
  | cons {e : HirExpr} {x : Build LoweredExpr} {es : List HirExpr}
      {xs : List (Build LoweredExpr)} {t : Trail} : LowersTo B retTy x (exprTrail B retTy e) →
      ArgsLower B retTy es xs t →
      ArgsLower B retTy (e :: es) (x :: xs) ((exprTrail B retTy e).andThen t)

theorem ArgsLower.parts (h : ArgsLower B retTy args xs t) : PartsLower B retTy xs t := by
  induction h with
  | nil => exact .nil
  | cons hx _ ih => exact .cons hx ih

theorem lowers_collectValues (h : PartsLower B retTy xs t) :
    Lowers B retTy (collectValues xs) t.toRecord fun vs ended =>
      t.ending.Fits vs.isSome ended := by
  induction h with
  | nil =>
    intro a b v ha hrun
    obtain ⟨rfl, rfl⟩ := run_pure_eq_ok.mp hrun
    exact ⟨.refl ha.isOpen.lt, rfl, FnBuilder.ended_of_open ha.isOpen⟩
  | @cons x xs t u hx _ ih =>
    refine LowersTo.follow hx (fun hending id => ?_) ⟨none, rfl, fits_gone⟩
    rw [andThen_value hending]
    intro a c vs ha hrun
    obtain ⟨ws, b, hws, hpure⟩ := run_bind_eq_ok.mp hrun
    obtain ⟨rfl, rfl⟩ := run_pure_eq_ok.mp hpure
    have hrest := ih ha hws
    refine ⟨hrest.1, ?_⟩
    change u.ending.Fits (ws.map (id :: ·)).isSome b.ended
    rw [Option.isSome_map]
    exact hrest.2

theorem PartsLower.onValues {next : List ValueId → Build LoweredExpr}
    (hxs : PartsLower B retTy xs t) (hnext : ∀ vs, LowersTo B retTy (next vs) u) :
    LowersTo B retTy (onValues xs next) (t.andThen u) := by
  refine Lowers.follow Option.isSome (lowers_collectValues hxs) (fun hending vs hvs => ?_) fun vs hvs => ?_
  · cases vs with
    | none => cases hvs
    | some vs =>
      rw [andThen_value hending]
      exact hnext vs
  · cases vs with
    | none => exact ⟨.diverged, rfl, fits_gone⟩
    | some vs => cases hvs

theorem andThen_nil (t : Trail) : t.andThen {} = t := by
  by_cases hending : t.ending = .value
  · rw [andThen_value hending]
    obtain ⟨r, ending, doubled⟩ := t
    cases hending
    change Trail.mk (r ++ ({} : Record)) .value (doubled || false) = _
    rw [record_append_nil, Bool.or_false]
  · exact andThen_gone hending {}

/-! ### Operands -/

theorem LowersTo.straight {next : ValueId → Build ValueId} (hx : LowersTo B retTy x t)
    (hnext : ∀ v, Straight B retTy (next v)) :
    LowersTo B retTy (Lower.onValue x fun v => valueOf (next v)) t := by
  have h := hx.onValue fun v => (hnext v).lowersTo
  rwa [andThen_nil] at h

theorem LowersTo.hinted (hx : LowersTo B retTy x (exprTrail B retTy e)) (hint : Ty) :
    LowersTo B retTy (lowerExprHinted B hint e x) (exprTrail B retTy e) := by
  unfold lowerExprHinted
  split
  · apply Lowers.ite
    · intro _
      rw [exprTrail]
      exact (straight_signedLiteral _ _ _).lowersTo
    · intro _
      exact hx
  · apply Lowers.ite
    · intro _
      rw [exprTrail]
      exact (straight_pushValue fun _ => rfl).lowersTo
    · intro _
      exact hx
  · exact hx

theorem lowers_orFail_bind {entry : Option α} {message : String} {f : α → Build β}
    (h : ∀ v, entry = some v → Lowers B retTy (f v) r Q) :
    Lowers B retTy (orFail entry message >>= f) r Q := by
  cases entry with
  | none => exact lowers_throw_bind _
  | some v =>
    have hv := h v rfl
    intro a b w ha hrun
    exact hv ha hrun

theorem typeOf_eq {id : ExprId} {ty : Ty} (h : B.exprTypes id = some ty) : typeOf B id = ty := by
  rw [typeOf, h, Option.getD_some]

theorem isAffineExpr_eq {id : ExprId} {ty : Ty} (h : B.exprTypes id = some ty) :
    isAffineExpr B id = B.isAffine ty := by
  rw [isAffineExpr, h, Option.map_some, Option.getD_some]

theorem isNeverExpr_eq {id : ExprId} {ty : Ty} (h : B.exprTypes id = some ty) :
    isNeverExpr B id = decide (ty = .never) := by
  rw [isNeverExpr, h]
  simp

theorem lowersTo_lowerUnary (op : UnaryOp) (hx : LowersTo B retTy x (exprTrail B retTy e)) :
    LowersTo B retTy (lowerUnary B op e x) (exprTrail B retTy e) := by
  unfold lowerUnary
  apply lowers_orFail_bind
  intro ty _
  have hgeneral : LowersTo B retTy (onValue (lowerExprHinted B ty e x) fun v =>
      valueOf (pushValue ty (unaryKind op v))) (exprTrail B retTy e) :=
    (hx.hinted ty).straight fun v => straight_pushValue fun _ => by cases op <;> rfl
  simp only
  split
  · apply Lowers.ite
    · intro _
      rw [exprTrail]
      exact (straight_signedLiteral _ _ _).lowersTo
    · intro _
      exact hgeneral
  · exact hgeneral

theorem beginning_binaryKind {op : BinaryOp} {a b : ValueId} {kind : ValueKind}
    (h : binaryKind op a b = some kind) (v : ValueId) (ty : Ty) :
    beginning (.value v ty kind) = none := by
  cases op <;> cases h <;> rfl

theorem beginning_assignKind {op : AssignOp} {a b : ValueId} {kind : ValueKind}
    (h : assignKind op a b = some kind) (v : ValueId) (ty : Ty) :
    beginning (.value v ty kind) = none := by
  cases op <;> cases h <;> rfl

theorem lowersTo_emitOperator (op : BinaryOp) (ty : Ty) (a b : ValueId) :
    LowersTo B retTy (emitOperator op ty a b) {} := by
  unfold emitOperator
  split
  · rename_i kind hkind
    exact (straight_pushValue fun v => beginning_binaryKind hkind v _).lowersTo
  · exact lowers_throw _

theorem lowersTo_lowerOperator {left right : HirExpr} (op : BinaryOp)
    (hx : LowersTo B retTy x (exprTrail B retTy left))
    (hy : LowersTo B retTy y (exprTrail B retTy right)) :
    LowersTo B retTy (lowerOperator B op left right x y)
      ((exprTrail B retTy left).andThen (exprTrail B retTy right)) := by
  apply lowers_orFail_bind
  intro ty _
  apply (hx.hinted ty).onValue
  intro a
  rw [← andThen_nil (exprTrail B retTy right)]
  apply (hy.hinted ty).onValue
  intro b
  exact lowersTo_emitOperator op ty a b

theorem lowersTo_lowerLocal (binding : LocalId) : LowersTo B retTy (lowerLocal B binding) {} := by
  apply Reads.get.straight.bind
  intro fb
  cases hbound : fb.localBindings.lookup binding with
  | none => exact lowers_throw _
  | some current => exact (straight_loadCurrent _ _).lowersTo

theorem lowersTo_lowerField {base : HirExpr} (hx : LowersTo B retTy x (exprTrail B retTy base)) :
    LowersTo B retTy (lowerField B e base x)
      (if isAffineExpr B e.id then {} else exprTrail B retTy base) := by
  apply lowers_orFail_bind
  intro ty hty
  rw [isAffineExpr_eq hty]
  by_cases haffine : B.isAffine ty = true
  · rw [if_pos haffine, if_pos haffine]
    apply (reads_resolvePlaceExpr e).straight.bind
    intro place
    cases place with
    | none => exact lowers_throw _
    | some place =>
      apply (straight_resolveNirPlace place).bind
      intro resolved
      exact (straight_pushValue fun _ => rfl).lowersTo
  · rw [if_neg haffine, if_neg haffine, ← andThen_nil (exprTrail B retTy base)]
    apply hx.onValue
    intro value
    apply (reads_orFail _ _).straight.bind
    intro baseTy
    apply (reads_resolveField _ _).straight.bind
    intro field
    exact (straight_pushValue fun _ => rfl).lowersTo

/-! ### Assignments -/

theorem lowersTo_lowerAssignField (target : HirExpr)
    (hx : LowersTo B retTy x (exprTrail B retTy e)) :
    LowersTo B retTy (lowerAssignField B target e x) (exprTrail B retTy e) := by
  apply (reads_resolvePlaceExpr target).straight.bind
  intro place
  cases place with
  | none => exact lowers_throw _
  | some place =>
    apply (straight_resolveNirPlace place).bind
    intro resolved
    rw [← andThen_nil (exprTrail B retTy e)]
    apply (hx.hinted resolved.2).onValue
    intro assigned
    apply (straight_pushInstruction rfl).bind
    intro _
    exact straight_unitValue.lowersTo

theorem straight_assignSlot (slot : ValueId) (ty : Ty) (op : AssignOp) (value : ExprId)
    (assigned : ValueId) : Straight B retTy (assignSlot B slot ty op value assigned) := by
  apply Lowers.ite
  · intro _
    apply (reads_lookupConsumeMode _ _ _).straight.bind
    intro transfers
    exact straight_pushInstruction rfl
  · intro _
    apply (straight_pushValue fun _ => rfl).bind
    intro loaded
    split
    · exact straight_pure _
    · rename_i kind hkind
      apply (straight_pushValue fun v => beginning_assignKind hkind v ty).bind
      intro final
      exact straight_pushInstruction rfl

theorem lowersTo_lowerAssignLocal (binding : LocalId) (op : AssignOp)
    (hx : LowersTo B retTy x (exprTrail B retTy e)) :
    LowersTo B retTy (lowerAssignLocal B binding op e x) (exprTrail B retTy e) := by
  apply Reads.get.straight.bind
  intro fb
  simp only
  split
  · apply lowers_orFail_bind
    intro ty _
    rw [← andThen_nil (exprTrail B retTy e)]
    apply (hx.hinted ty).onValue
    intro assigned
    apply (straight_assignSlot _ _ _ _ _).bind
    intro _
    exact straight_unitValue.lowersTo
  · exact lowers_throw _

theorem lowersTo_unit : LowersTo B retTy (valueOf unitValue) {} := straight_unitValue.lowersTo

theorem lowersTo_lowerBoth {target : HirExpr} (hx : LowersTo B retTy x (exprTrail B retTy target))
    (hy : LowersTo B retTy y (exprTrail B retTy e)) :
    LowersTo B retTy (onValue x fun _ => onValue y fun _ => valueOf unitValue)
      ((exprTrail B retTy target).andThen (exprTrail B retTy e)) := by
  apply hx.onValue
  intro _
  rw [← andThen_nil (exprTrail B retTy e)]
  exact hy.onValue fun _ => lowersTo_unit

theorem lowersTo_lowerAssign {id : ExprId} {target : HirExpr} (op : AssignOp)
    (hx : LowersTo B retTy x (exprTrail B retTy target))
    (hy : LowersTo B retTy y (exprTrail B retTy e)) :
    LowersTo B retTy (lowerAssign B target op e x y)
      (exprTrail B retTy (.assign id target op e)) := by
  unfold lowerAssign
  cases target with
  | localVar _ binding =>
    rw [exprTrail]
    exact lowersTo_lowerAssignLocal binding op hy
  | field fieldId base =>
    rw [exprTrail]
    apply lowers_orFail_bind
    intro ty hty
    have hsame : isAffineExpr B fieldId = B.isAffine ty := isAffineExpr_eq hty
    rw [hsame]
    by_cases haffine : B.isAffine ty = true
    · rw [if_pos haffine, if_pos haffine]
      exact lowersTo_lowerAssignField _ hy
    · rw [if_neg haffine, if_neg haffine]
      exact lowersTo_lowerBoth hx hy
  | _ =>
    rw [exprTrail]
    · exact lowersTo_lowerBoth hx hy
    · simp
    · simp

/-! ### Calls and constructions -/

theorem ArgsLower.arguments (h : ArgsLower B retTy args xs t) (context : String) (subst : Subst)
    {params : List Ty} (hlength : params.length = args.length) :
    PartsLower B retTy (lowerArguments B context params subst args xs) t := by
  induction h generalizing params with
  | nil =>
    obtain rfl := List.eq_nil_of_length_eq_zero hlength
    exact .nil
  | @cons e x es xs t hx _ ih =>
    obtain ⟨param, params, rfl⟩ := List.exists_cons_of_length_eq_add_one hlength
    refine .cons ?_ (ih (Nat.succ.inj hlength))
    rw [← andThen_nil (exprTrail B retTy e)]
    apply (hx.hinted _).onValue
    intro value
    apply (reads_lookupConsumeMode _ _ _).straight.bind
    intro transfers
    exact (straight_moveIfTransferred _ _ _).lowersTo

theorem ArgsLower.hinted (h : ArgsLower B retTy args xs t) (subst : Subst) {params : List Ty}
    (hlength : params.length = args.length) :
    PartsLower B retTy (lowerParts B params subst args xs) t := by
  induction h generalizing params with
  | nil =>
    obtain rfl := List.eq_nil_of_length_eq_zero hlength
    exact .nil
  | @cons e x es xs t hx _ ih =>
    obtain ⟨param, params, rfl⟩ := List.exists_cons_of_length_eq_add_one hlength
    exact .cons (hx.hinted _) (ih (Nat.succ.inj hlength))

theorem PartsLower.values {next : List ValueId → Build LoweredExpr} (hxs : PartsLower B retTy xs t)
    (hnext : ∀ vs, LowersTo B retTy (next vs) {}) :
    LowersTo B retTy (Lower.onValues xs next) t := by
  rw [← andThen_nil t]
  exact hxs.onValues hnext

theorem lowersTo_lowerVariantConstruct {callTy : Build Ty} (variant : ItemId) (case : ℕ)
    (id : ExprId) (h : ArgsLower B retTy args xs t) (hty : Reads callTy) :
    LowersTo B retTy (lowerVariantConstruct B variant case id args xs callTy) t := by
  apply (reads_orFail _ _).straight.bind
  intro layout
  apply (reads_resolveCallTypeArgs _ _ _).straight.bind
  intro typeArgs
  by_cases hlength : args.length ≠ layout.2.length
  · rw [if_pos hlength]
    exact lowers_throw_bind _
  · rw [if_neg hlength]
    apply (h.hinted _ (by omega)).values
    intro payload
    apply hty.straight.bind
    intro ty
    exact (straight_pushValue fun _ => rfl).lowersTo

theorem lowersTo_lowerProtocolCall (id : ExprId) (protocol : ItemId) (method : ℕ)
    (h : ArgsLower B retTy args xs t) :
    LowersTo B retTy (lowerProtocolCall B id protocol method e xs) t := by
  apply h.parts.values
  intro values
  apply (reads_orFail _ _).straight.bind
  intro evidence
  apply (reads_orFail _ _).straight.bind
  intro ty
  exact (straight_pushValue fun _ => rfl).lowersTo

theorem lowersTo_lowerFunctionCall (item : ItemId) (h : ArgsLower B retTy args xs t) :
    LowersTo B retTy (lowerFunctionCall B item e args xs) t := by
  apply (reads_orFail _ _).straight.bind
  intro sig
  apply (reads_resolveCallTypeArgs _ _ _).straight.bind
  intro typeArgs
  by_cases hlength : sig.params.length ≠ args.length
  · rw [if_pos hlength]
    exact lowers_throw_bind _
  · rw [if_neg hlength]
    apply (h.arguments _ _ (by omega)).values
    intro values
    apply (reads_orFail _ _).straight.bind
    intro requirements
    apply (reads_resolveCallEvidence _ _ _).straight.bind
    intro evidence
    apply (reads_orFail _ _).straight.bind
    intro ty
    exact (straight_pushValue fun _ => rfl).lowersTo

theorem lowersTo_lowerCall {id : ExprId} {callee : HirExpr}
    (hx : LowersTo B retTy x (exprTrail B retTy callee)) (h : ArgsLower B retTy args xs t) :
    LowersTo B retTy (lowerCall B (.call id callee args) callee args x xs)
      ((exprTrail B retTy callee).andThen t) := by
  unfold lowerCall
  cases callee with
  | caseRef _ variant case =>
    rw [exprTrail, nil_andThen]
    exact lowersTo_lowerVariantConstruct variant case _ h (reads_orFail _ _)
  | protocolMethodRef calleeId protocol method =>
    rw [exprTrail, nil_andThen]
    exact lowersTo_lowerProtocolCall calleeId protocol method h
  | function _ item =>
    rw [exprTrail, nil_andThen]
    exact lowersTo_lowerFunctionCall item h
  | _ =>
    apply hx.onValue
    intro _
    apply h.parts.values
    intro _
    exact lowers_throw _

theorem reads_checkFieldIndices (record : ItemId) (count : ℕ) (seen indices : List ℕ) :
    Reads (checkFieldIndices record count seen indices) := by
  induction indices generalizing seen with
  | nil => exact .pure _
  | cons index rest ih => exact .ite (.throw _) (.ite (.throw _) (ih _))

theorem lowersTo_lowerRecordLiteral {fields : List (ℕ × HirExpr)} (record : ItemId)
    (h : ArgsLower B retTy (fields.map (·.2)) xs t) :
    LowersTo B retTy (lowerRecordLiteral B record e fields xs) t := by
  apply (reads_orFail _ _).straight.bind
  intro layout
  apply (reads_checkFieldIndices _ _ _ _).straight.bind
  intro _
  split
  · exact lowers_throw _
  · apply (reads_resolveCallTypeArgs _ _ _).straight.bind
    intro typeArgs
    apply (h.hinted _ (by simp)).values
    intro values
    apply (reads_orFail _ _).straight.bind
    intro ty
    exact (straight_pushValue fun _ => rfl).lowersTo

end

end Napitia.Lower

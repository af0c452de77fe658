import Napitia.Lower.Landing

/-!
# The pieces that open no block

Lookups, loads, moves and the cleanup of an exit, and the constructs that evaluate their
parts one after the other.
-/
namespace Napitia.Lower
open Nir StateT
open Hir (ExprId)
open Hir.Body
open Resourceck (LocalPlace CleanupAction)

section
variable {B : BodyLowering} {retTy : Ty} {α β : Type}

/-! ### Lookups -/

theorem reads_orFail (entry : Option α) (message : String) : Reads (orFail entry message) := by
  cases entry with
  | none => exact .throw _
  | some v => exact .pure v

theorem reads_lookupConsumeMode (id : ExprId) (ty : Ty) (context : String) :
    Reads (lookupConsumeMode B id ty context) := by
  unfold lookupConsumeMode
  apply Reads.ite (.pure _)
  cases B.consumeSites id with
  | none => exact .throw _
  | some info => cases info <;> exact .pure _

theorem reads_resolveEach (recorded : Option (List α)) (declared : ℕ) (missing : String)
    (wrong : ℕ → String) : Reads (resolveEach recorded declared missing wrong) := by
  unfold resolveEach
  cases recorded with
  | none => exact .ite (.pure _) (.throw _)
  | some entries => exact .ite (.pure _) (.throw _)

theorem reads_resolveCallTypeArgs (id : ExprId) (declared : List TypeParamId) (what : String) :
    Reads (resolveCallTypeArgs B id declared what) := reads_resolveEach _ _ _ _

theorem reads_resolveCallEvidence (id : ExprId) (requirements : List CapabilityRequirement)
    (what : String) : Reads (resolveCallEvidence B id requirements what) :=
  reads_resolveEach _ _ _ _

theorem reads_resolveField (baseTy : Ty) (name : Symbol) : Reads (resolveField B baseTy name) := by
  unfold resolveField
  cases recordOf baseTy with
  | none => exact .throw _
  | some record =>
    simp only
    cases fieldIndex B record name with
    | none => exact .throw _
    | some index => exact .pure _

theorem reads_resolvePlaceExpr (e : HirExpr) : Reads (resolvePlaceExpr B e) := by
  induction e using resolvePlaceExpr.induct with
  | case1 id binding => exact .pure _
  | case2 id base ih =>
    unfold resolvePlaceExpr
    apply ih.bind
    intro place
    cases place with
    | none => exact .pure _
    | some place =>
      apply (reads_orFail _ _).bind
      intro baseTy
      apply (reads_resolveField _ _).bind
      intro field
      exact .pure _
  | case3 e hlocal hfield =>
    unfold resolvePlaceExpr
    split
    · exact absurd rfl (hlocal _ _)
    · exact absurd rfl (hfield _ _)
    · exact .pure _

theorem reads_projectionArgs (ty : Ty) (owner : ItemId) : Reads (projectionArgs B ty owner) := by
  unfold projectionArgs
  cases ty with
  | named item => exact .ite (.pure _) (.throw _)
  | applied item args => exact .ite (.pure _) (.throw _)
  | _ => exact .throw _

theorem reads_projectTy (ty : Ty) (projection : Projection) :
    Reads (projectTy B ty projection) := by
  cases projection with
  | variantField => exact .throw _
  | field owner field =>
    apply (reads_projectionArgs ty owner).bind
    intro args
    apply (reads_orFail _ _).bind
    intro record
    apply (reads_orFail _ _).bind
    intro fieldTy
    apply (reads_orFail _ _).bind
    intro subst
    exact .pure _

theorem reads_foldlM {g : α → β → Build α} (h : ∀ a b, Reads (g a b)) (l : List β) (a : α) :
    Reads (l.foldlM g a) := by
  induction l generalizing a with
  | nil => exact .pure _
  | cons b l ih =>
    rw [List.foldlM_cons]
    exact (h a b).bind fun _ => ih _

theorem reads_currentTerminated {a b : FnBuilder} {v : Bool}
    (h : currentTerminated.run a = .ok (v, b)) : v = a.ended ∧ b = a := by
  cases h
  exact ⟨rfl, rfl⟩

/-! ### Values -/

theorem straight_loadCurrent (binding : LocalId) (current : LocalBinding) :
    Straight B retTy (loadCurrent B binding current) := by
  cases current with
  | direct value => exact straight_pure _
  | slot slot =>
    apply (reads_orFail _ _).straight.bind
    intro ty
    exact straight_pushValue fun _ => rfl

theorem straight_signedLiteral (ty : Ty) (magnitude : ℕ) (negated : Bool) :
    Straight B retTy (signedLiteral B ty magnitude negated) := by
  unfold signedLiteral
  split
  · exact straight_pushValue fun _ => rfl
  · exact lowers_throw _

theorem straight_moveIfTransferred (value : ValueId) (ty : Ty) (transfers : Bool) :
    Straight B retTy (moveIfTransferred B value ty transfers) :=
  .ite (fun _ => straight_pushValue fun _ => rfl) fun _ => straight_pure _

theorem straight_unitValue : Straight B retTy unitValue := straight_pushValue fun _ => rfl

theorem straight_bindLocal (binding : LocalId) (bound : LocalBinding) :
    Straight B retTy (bindLocal binding bound) :=
  straight_modify (fun _ => rfl) (fun _ => rfl) (fun _ => rfl) fun _ => rfl

theorem straight_resolveNirPlace (place : LocalPlace) :
    Straight B retTy (resolveNirPlace B place) := by
  unfold resolveNirPlace
  apply Reads.get.straight.bind
  intro fb
  apply (reads_orFail _ _).straight.bind
  intro binding
  apply (straight_loadCurrent _ _).bind
  intro root
  apply (reads_orFail _ _).straight.bind
  intro rootTy
  apply (reads_foldlM reads_projectTy _ _).straight.bind
  intro ty
  exact straight_pure _

/-! ### The cleanup of an exit -/

theorem straight_emitObservationEnds (exit : ExprId) :
    Straight B retTy (emitObservationEnds B exit) := by
  unfold emitObservationEnds
  cases B.observationExits exit with
  | none => exact straight_pure _
  | some ends =>
    apply straight_forM
    intro ended
    apply Lowers.ite
    · intro _
      exact lowers_throw_bind _
    · intro _
      apply Lowers.ite
      · intro _
        exact lowers_throw_bind _
      · intro _
        exact straight_pushInstruction rfl

theorem straight_takePlace (place : LocalPlace) : Straight B retTy (takePlace B place) := by
  apply Lowers.ite
  · intro _
    apply Reads.get.straight.bind
    intro fb
    apply (reads_orFail _ _).straight.bind
    intro binding
    exact straight_loadCurrent _ _
  · intro _
    apply (straight_resolveNirPlace _).bind
    intro resolved
    exact straight_pushValue fun _ => rfl

theorem straight_emitDrop (place : LocalPlace) : Straight B retTy (emitDrop B place) := by
  apply (straight_takePlace place).bind
  intro value
  exact straight_pushInstruction rfl

theorem straight_emitDeferred (id : ExprId) (last : Option ℕ) :
    Straight B retTy (emitDeferred B id last) := by
  unfold emitDeferred
  apply Reads.get.straight.bind
  intro fb
  apply (reads_orFail _ _).straight.bind
  intro pending
  apply (reads_orFail _ _).straight.bind
  intro plan
  apply Lowers.ite
  · intro _
    exact lowers_throw_bind _
  · intro _
    apply (straight_pushValue fun _ => rfl).bind
    intro value
    exact straight_pure _

theorem straight_replayCleanup (last : Option ℕ) (actions : List CleanupAction) :
    Straight B retTy (replayCleanup B last actions) := by
  induction actions generalizing last with
  | nil => exact straight_pure _
  | cons action rest ih =>
    cases action with
    | drop place => exact (straight_emitDrop place).bind fun _ => ih last
    | defer id => exact (straight_emitDeferred id last).bind fun order => ih (some order)

theorem lowers_emitCheckedCleanup (exit : ExprId) :
    Lowers B retTy (emitCheckedCleanup B exit) { exits := [exit] } fun _ ended => ended = false := by
  unfold emitCheckedCleanup
  apply (straight_emitObservationEnds exit).bind
  intro _
  cases hplan : B.cleanupEdges exit with
  | none => exact lowers_throw_bind _
  | some actions =>
    intro a b v ha hrun
    have hreplay := straight_replayCleanup none actions ha hrun
    have hlands := hreplay.1
    refine ⟨⟨hlands.length, hlands.kept, hlands.current, hlands.inRange, hlands.returnTy,
      hlands.begun, ?_, hlands.asserted⟩, hreplay.2⟩
    intro id hid
    obtain rfl := List.mem_singleton.mp hid
    rw [hplan]
    rfl

end

/-! ### Expressions -/

def LoweredExpr.isValue : LoweredExpr → Bool
  | .value _ => true
  | .diverged => false

/-- Whether there is a value, and whether the block is ended. -/
def Ending.Fits (ending : Ending) (hasValue ended : Bool) : Prop :=
  match ending with
  | .value => hasValue = true ∧ ended = false
  | .closed => hasValue = false ∧ ended = true
  | .dangling => hasValue = false ∧ ended = false

/-- The lowering of an expression follows a trail. -/
def LowersTo (B : BodyLowering) (retTy : Ty) (x : Build LoweredExpr) (t : Trail) : Prop :=
  Lowers B retTy x t.toRecord fun v ended => t.ending.Fits v.isValue ended

/-- The lowering of a statement follows a trail. -/
def LowersStmt (B : BodyLowering) (retTy : Ty) {α : Type} (x : Build α) (t : Trail) : Prop :=
  Lowers B retTy x t.toRecord fun _ ended => ended = decide (t.ending = .closed)

section
variable {B : BodyLowering} {retTy : Ty} {α β : Type} {t u : Trail} {x : Build LoweredExpr}
  {next : ValueId → Build LoweredExpr} {Q : β → Bool → Prop}

theorem andThen_value (h : t.ending = .value) (u : Trail) :
    t.andThen u = ⟨t.toRecord ++ u.toRecord, u.ending, t.doubled || u.doubled⟩ := by
  unfold Trail.andThen
  rw [h]

theorem andThen_gone (h : t.ending ≠ .value) (u : Trail) : t.andThen u = t := by
  unfold Trail.andThen
  cases he : t.ending with
  | value => exact absurd he h
  | closed => rfl
  | dangling => rfl

@[simp] theorem nil_andThen (u : Trail) : ({} : Trail).andThen u = u := rfl

theorem LowersTo.congr (hx : LowersTo B retTy x t) (hrecord : u.toRecord = t.toRecord)
    (hending : u.ending = t.ending) : LowersTo B retTy x u := by
  unfold LowersTo
  rw [hrecord, hending]
  exact hx

theorem Ending.Fits.isValue_iff {ending : Ending} {hasValue ended : Bool}
    (h : ending.Fits hasValue ended) : hasValue = true ↔ ending = .value := by
  cases ending with
  | value => simp [h.1]
  | closed => simp [h.1]
  | dangling => simp [h.1]

theorem Ending.Fits.ended_eq {ending : Ending} {hasValue ended : Bool}
    (h : ending.Fits hasValue ended) : ended = decide (ending = .closed) := by
  cases ending with
  | value => simp [h.2]
  | closed => simp [h.2]
  | dangling => simp [h.2]

theorem Ending.Fits.ne_value {ending : Ending} {ended : Bool} (h : ending.Fits false ended) :
    ending ≠ .value := fun hvalue => absurd (h.isValue_iff.mpr hvalue) Bool.false_ne_true

theorem Lowers.follow (hasValue : α → Bool) {y : Build α} {f : α → Build β} {u : Trail}
    (hy : Lowers B retTy y t.toRecord fun v ended => t.ending.Fits (hasValue v) ended)
    (hvalue : t.ending = .value → ∀ v, hasValue v = true → Lowers B retTy (f v) u.toRecord Q)
    (hgone : ∀ v, hasValue v = false → ∃ w, f v = pure w ∧
      (t.ending ≠ .value → Q w (decide (t.ending = .closed)))) :
    Lowers B retTy (y >>= f) (t.andThen u).toRecord Q := by
  intro a c w ha hrun
  obtain ⟨v, b, hyrun, hfrun⟩ := run_bind_eq_ok.mp hrun
  obtain ⟨hlands, hfits⟩ := hy ha hyrun
  have hended := hfits.ended_eq
  by_cases hending : t.ending = .value
  · have hopen : b.ended = false := by simp [hended, hending]
    have hnext := hvalue hending v (hfits.isValue_iff.mpr hending) (hlands.ready ha hopen) hfrun
    rw [andThen_value hending]
    exact ⟨hlands.trans hnext.1, hnext.2⟩
  · have hnone : hasValue v = false := by
      rw [← Bool.not_eq_true, hfits.isValue_iff]
      exact hending
    obtain ⟨w', hpure, hQ⟩ := hgone v hnone
    rw [hpure] at hfrun
    obtain ⟨rfl, rfl⟩ := run_pure_eq_ok.mp hfrun
    rw [andThen_gone hending, hended]
    exact ⟨hlands, hQ hending⟩

theorem LowersTo.follow {f : LoweredExpr → Build β} (hx : LowersTo B retTy x t)
    (hvalue : t.ending = .value → ∀ id, Lowers B retTy (f (.value id)) u.toRecord Q)
    (hgone : ∃ w, f .diverged = pure w ∧
      (t.ending ≠ .value → Q w (decide (t.ending = .closed)))) :
    Lowers B retTy (x >>= f) (t.andThen u).toRecord Q := by
  refine Lowers.follow LoweredExpr.isValue hx (fun hending v hv => ?_) fun v hv => ?_
  · cases v with
    | value id => exact hvalue hending id
    | diverged => cases hv
  · cases v with
    | value id => cases hv
    | diverged => exact hgone

theorem fits_gone (h : t.ending ≠ .value) :
    (t.andThen u).ending.Fits false (decide (t.ending = .closed)) := by
  rw [andThen_gone h]
  cases he : t.ending with
  | value => exact absurd he h
  | closed => exact ⟨rfl, rfl⟩
  | dangling => exact ⟨rfl, rfl⟩

theorem LowersTo.onValue (hx : LowersTo B retTy x t)
    (hnext : ∀ v, LowersTo B retTy (next v) u) : LowersTo B retTy (onValue x next) (t.andThen u) := by
  refine LowersTo.follow hx (fun hending id => ?_) ⟨.diverged, rfl, fits_gone⟩
  rw [andThen_value hending]
  exact hnext id

theorem lowersTo_pure (id : ValueId) : LowersTo B retTy (pure (.value id)) {} := by
  intro a b v ha hrun
  obtain ⟨rfl, rfl⟩ := run_pure_eq_ok.mp hrun
  exact ⟨.refl ha.isOpen.lt, rfl, FnBuilder.ended_of_open ha.isOpen⟩

theorem Straight.lowersTo {y : Build ValueId} (h : Straight B retTy y) :
    LowersTo B retTy (valueOf y) {} :=
  Straight.bind h lowersTo_pure

end

end Napitia.Lower

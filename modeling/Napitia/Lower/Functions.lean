import Napitia.Lower.Following

/-!
# Lowered functions

A function that is lowered begins what the trail of its body says.
-/
namespace Napitia.Lower
open Nir StateT
open Hir (ExprId HirHandleArmKind)
open Hir.Body

section
variable {B : BodyLowering} {retTy : Ty} {α β : Type}

theorem straight_freshValue : Straight B retTy freshValue := by
  intro a b v ha hrun
  cases hrun
  exact ⟨lands_same ha.isOpen.lt rfl rfl rfl rfl, FnBuilder.ended_of_open ha.isOpen⟩

theorem straight_lowerParam (param : HirParam) : Straight B retTy (lowerParam B param) := by
  apply (reads_orFail _ _).straight.bind
  intro ty
  apply straight_freshValue.bind
  intro value
  apply (straight_bindLocal _ _).bind
  intro _
  exact straight_pure _

theorem straight_mapM {f : α → Build β} (hf : ∀ v, Straight B retTy (f v)) (l : List α) :
    Straight B retTy (l.mapM f) := by
  induction l with
  | nil =>
    rw [List.mapM_nil]
    exact straight_pure _
  | cons v l ih =>
    rw [List.mapM_cons]
    exact (hf v).bind fun _ => ih.bind fun _ => straight_pure _

theorem lands_lowerTailReturn {x : Build LoweredExpr} {t : Trail} (id : ExprId)
    (hx : LowersTo B retTy x t) :
    Lowers B retTy (lowerTailReturn B retTy id x) (t.andThen (.leaves id)).toRecord
      fun _ _ => True := by
  intro a d v ha hrun
  obtain ⟨result, b, hxrun, hrun⟩ := run_bind_eq_ok.mp hrun
  obtain ⟨ended, c, hterm, hrest⟩ := run_bind_eq_ok.mp hrun
  obtain ⟨rfl, rfl⟩ := reads_currentTerminated hterm
  obtain ⟨hlands, hfits⟩ := hx ha hxrun
  have hended := hfits.ended_eq
  cases hending : t.ending with
  | closed =>
    have hclosed : c.ended = true := by simp [hended, hending]
    rw [hclosed] at hrest
    obtain ⟨-, rfl⟩ := run_pure_eq_ok.mp hrest
    rw [andThen_gone (by simp [hending])]
    exact ⟨hlands, trivial⟩
  | dangling =>
    have hopen : c.ended = false := by simp [hended, hending]
    rw [hopen] at hrest
    cases result with
    | value value => exact absurd (hfits.isValue_iff.mp rfl) (by simp [hending])
    | diverged => exact absurd hrest run_throw_ne_ok
  | value =>
    have hopen : c.ended = false := by simp [hended, hending]
    rw [hopen] at hrest
    cases result with
    | diverged =>
      have hvalue := hfits.isValue_iff.mpr hending
      cases hvalue
    | value value =>
      have hleave : Lowers B retTy (emitCheckedCleanup B id >>= fun _ =>
          finishTail B retTy value >>= fun _ => pure ()) (Trail.leaves id).toRecord
          fun _ _ => True := by
        rw [← record_append_nil (Trail.leaves id).toRecord]
        refine (lowers_emitCheckedCleanup id).bind (fun _ _ h => h) fun _ _ => ?_
        exact (lowersTo_finishTail retTy value).map_result fun _ _ _ => trivial
      have hdone := hleave (hlands.ready ha hopen) hrest
      rw [andThen_value hending]
      exact ⟨hlands.trans hdone.1, trivial⟩

theorem lowers_lowerBody (body : HirBlock) :
    Lowers B retTy (lowerBody B retTy body) (bodyTrail B retTy body).toRecord fun _ _ => True := by
  obtain ⟨id, statements, tail⟩ := body
  simp only [lowerBody, bodyTrail]
  by_cases haffine : B.isAffine retTy = true
  · rw [if_pos haffine, if_pos haffine]
    exact (lowersTo_blockIntoReturnSink (fun v => lowersTo_finishTail retTy v) retTy
      _).map_result fun _ _ _ => trivial
  · rw [if_neg haffine, if_neg haffine]
    exact lands_lowerTailReturn id (lowersTo_lowerBlockValue (stmtsLower_statementsOf statements)
      (lowersTo_lowerTail tail))

end

/-! ### Functions -/

/-- The observations a function begins, as often as its blocks begin them. -/
def begunIn (f : Function) : List ObservationId :=
  f.blocks.flatMap fun b => b.instructions.filterMap beginning

section
variable {B : BodyLowering}

theorem instructions_finishBlock {name : String} {blocks : List PendingBlock}
    {finished : List BasicBlock} (h : blocks.mapM (finishBlock name) = .ok finished) :
    finished.map (·.instructions) = blocks.map (·.instructions) := by
  induction blocks generalizing finished with
  | nil =>
    rw [List.mapM_nil] at h
    cases h
    rfl
  | cons block blocks ih =>
    rw [List.mapM_cons] at h
    obtain ⟨first, hfirst, h⟩ := Except.bind_eq_ok.mp h
    obtain ⟨others, hothers, h⟩ := Except.bind_eq_ok.mp h
    cases h
    have hsame : first.instructions = block.instructions := by
      unfold finishBlock at hfirst
      split at hfirst
      · cases hfirst
        rfl
      · cases hfirst
    rw [List.map_cons, List.map_cons, hsame, ih hothers]

theorem lands_lowerFunction {head : FunctionHead} {f : HirFunction} {g : Function}
    (h : lowerFunction B head f = .ok g) :
    ∃ fb, Lands B { returnTy := head.returnType } (bodyTrail B head.returnType f.body).toRecord fb ∧
      g.blocks.map (·.instructions) = fb.blocks.map (·.instructions) := by
  obtain ⟨⟨params, fb⟩, hlowered, h⟩ := Except.bind_eq_ok.mp h
  obtain ⟨blocks, hblocks, h⟩ := Except.bind_eq_ok.mp h
  cases h
  have hstart : ({ returnTy := head.returnType } : FnBuilder).Ready head.returnType :=
    ⟨⟨_, rfl, rfl⟩, rfl⟩
  have hbody : Lowers B head.returnType (lowerParamsAndBody B head f)
      (bodyTrail B head.returnType f.body).toRecord fun _ _ => True := by
    apply (straight_mapM straight_lowerParam _).bind
    intro params
    exact (lowers_lowerBody f.body).map_result fun _ _ _ => trivial
  exact ⟨fb, (hbody hstart hlowered).1, instructions_finishBlock hblocks⟩

theorem begunIn_perm {head : FunctionHead} {f : HirFunction} {g : Function}
    (h : lowerFunction B head f = .ok g) :
    (begunIn g).Perm (bodyTrail B head.returnType f.body).begun := by
  obtain ⟨fb, hlands, hblocks⟩ := lands_lowerFunction h
  have hbegun : begunIn g = fb.begun := by
    have hboth := congrArg (List.flatMap (·.filterMap beginning)) hblocks
    rw [List.flatMap_map, List.flatMap_map] at hboth
    exact hboth
  rw [hbegun]
  exact hlands.begun

/-- A function is lowered only where the resource checker has recorded the cleanup of every
exit that lowering comes to. -/
theorem exits_planned {head : FunctionHead} {f : HirFunction} {g : Function}
    (h : lowerFunction B head f = .ok g) :
    ∀ id ∈ (bodyTrail B head.returnType f.body).exits, (B.cleanupEdges id).isSome := by
  obtain ⟨fb, hlands, -⟩ := lands_lowerFunction h
  exact hlands.planned

end

end Napitia.Lower

import Napitia.Lower.Forking

/-!
# The leaves of a lowered decision

A decision lowers the body of an arm once for each leaf that comes to it, in the order of
the leaves.
-/
namespace Napitia.Lower
open Nir StateT
open Hir (ExprId)
open Hir.Body

section
variable {B : BodyLowering} {retTy : Ty} {α γ : Type} {a b c : FnBuilder} {r : Record}
  {pending : List ℕ} {arms : List Trail} {ls ms : List (Option ℕ)} {x y : Build Unit}

/-- A piece of a decision comes to these leaves. -/
def Decides (B : BodyLowering) (retTy : Ty) (arms : List Trail) (x : Build Unit)
    (ls : List (Option ℕ)) : Prop :=
  Lowers B retTy x (leavesTrail arms ls).toRecord fun _ ended =>
    ls ≠ [] ∧ ended = decide ((leavesTrail arms ls).ending = .closed)

@[simp] theorem record_leavesTrail_nil : (leavesTrail arms []).toRecord = {} := rfl

@[simp] theorem record_leavesTrail_cons (l : Option ℕ) (ls : List (Option ℕ)) :
    (leavesTrail arms (l :: ls)).toRecord =
      (leafTrail arms l).toRecord ++ (leavesTrail arms ls).toRecord := rfl

@[simp] theorem record_leavesTrail_append :
    (leavesTrail arms (ls ++ ms)).toRecord =
      (leavesTrail arms ls).toRecord ++ (leavesTrail arms ms).toRecord := by
  induction ls with
  | nil => rfl
  | cons l ls ih =>
    rw [List.cons_append, record_leavesTrail_cons, record_leavesTrail_cons, ih,
      record_append_assoc]

theorem ending_leavesTrail_append (h : ms ≠ []) :
    (leavesTrail arms (ls ++ ms)).ending = (leavesTrail arms ms).ending := by
  obtain ⟨front, last, rfl⟩ := List.eq_nil_or_concat' ms |>.resolve_left h
  simp [leavesTrail, Trail.all]

theorem decides_leaf {l : Option ℕ} (h : LowersStmt B retTy x (leafTrail arms l)) :
    Decides B retTy arms x [l] := by
  unfold Decides
  rw [record_leavesTrail_cons, record_leavesTrail_nil, record_append_nil]
  exact h.mono fun _ _ hended => ⟨by simp, hended⟩

theorem Forks.decideEach (l : List γ) (block : γ → BlockId) (part : γ → Build Unit)
    (leaves : γ → List (Option ℕ)) {f : γ → Build Unit} {u : Unit}
    (h : Forks B retTy a r b (l.map (fun p => (block p).index) ++ pending))
    (hf : ∀ p, f p = switchTo (block p) >>= fun _ => part p)
    (hparts : ∀ p, Decides B retTy arms (part p) (leaves p))
    (hrun : (l.forM f).run b = .ok (u, c)) :
    Forks B retTy a (r ++ (leavesTrail arms (l.flatMap leaves)).toRecord) c pending ∧
      (l = [] → c = b) ∧ (l ≠ [] → l.flatMap leaves ≠ [] ∧
        c.ended = decide ((leavesTrail arms (l.flatMap leaves)).ending = .closed)) := by
  induction l generalizing b r with
  | nil =>
    obtain ⟨-, rfl⟩ := run_pure_eq_ok.mp hrun
    rw [List.flatMap_nil, record_leavesTrail_nil, record_append_nil]
    exact ⟨h, fun _ => rfl, fun hne => absurd rfl hne⟩
  | cons p l ih =>
    obtain ⟨_, mid, hfirst, hrest⟩ := run_bind_eq_ok.mp hrun
    rw [hf] at hfirst
    obtain ⟨_, entered, hturn, hpart⟩ := run_bind_eq_ok.mp hfirst
    have hforks := (h.enter hturn).piece (hparts p) hpart
    have hlater := ih hforks.1 hrest
    rw [List.flatMap_cons, record_leavesTrail_append, ← record_append_assoc]
    refine ⟨hlater.1, by simp, fun _ => ?_⟩
    by_cases hnil : l = []
    · rw [hlater.2.1 hnil, hnil]
      simpa using hforks.2
    · have hlast := hlater.2.2 hnil
      refine ⟨?_, ?_⟩
      · simp [hlast.1]
      · rw [ending_leavesTrail_append hlast.1]
        exact hlast.2

/-! ### Columns -/

variable {L : Lowering}

theorem straight_enterArm (winner : MatrixRow) : Straight B retTy (enterArm L winner) := by
  apply (@straight_modify B retTy (fun fb => { fb with
    localBindings := winner.bindings.foldl
      (fun bindings b => bindings.insert b.1 (.direct b.2)) fb.localBindings })
    (fun _ => rfl) (fun _ => rfl) (fun _ => rfl) fun _ => rfl).bind
  intro _
  apply Straight.bind
  · apply straight_forM
    intro shell
    apply Reads.get.straight.bind
    intro fb
    exact straight_pushInstruction rfl
  · intro _
    apply straight_forM
    intro occ
    exact .ite (fun _ => straight_pushInstruction rfl) fun _ => straight_pure _

theorem straight_literalConst (lit : LiteralTest) (ty : Ty) :
    Straight B retTy (literalConst L lit ty) := by
  cases lit with
  | int value =>
    unfold literalConst intLiteral
    simp only
    split
    · exact straight_pushValue fun _ => rfl
    · exact lowers_throw _
  | str value => exact straight_pushValue fun _ => rfl
  | char value => exact straight_pushValue fun _ => rfl
  | bool value => exact straight_pushValue fun _ => rfl

variable {next : List MatrixRow → List Occurrence → Build Unit}
  {nextLeaves : List Candidate → List Ty → List (Option ℕ)}
  (hnext : ∀ rows occs, Decides B retTy arms (next rows occs)
    (nextLeaves (rows.map MatrixRow.candidate) (occs.map (·.ty))))

include hnext

theorem decides_next {rows : List MatrixRow} {occs : List Occurrence} {cs : List Candidate}
    {tys : List Ty} (hcs : rows.map MatrixRow.candidate = cs) (htys : occs.map (·.ty) = tys) :
    Decides B retTy arms (next rows occs) (nextLeaves cs tys) := by
  subst hcs htys
  exact hnext rows occs

theorem decides_lowerBoolSwitch (occ : Occurrence) (rest : List Occurrence)
    (rows : List MatrixRow) :
    Decides B retTy arms (lowerBoolSwitch L next occ rest rows)
      (L.boolLeaves nextLeaves (rest.map (·.ty)) (rows.map MatrixRow.candidate)) := by
  have hany := any_candidate (L := L) Classified.isBool rows
  unfold lowerBoolSwitch Lowering.boolLeaves
  rw [hany]
  apply Lowers.ite
  · intro htests
    rw [if_pos htests]
    exact decides_next hnext (untested_candidates occ rows) rfl
  · intro htests a c u ha hrun
    rw [if_neg htests]
    obtain ⟨thenBlock, b₁, hthen, hrun⟩ := run_bind_eq_ok.mp hrun
    obtain ⟨elseBlock, b₂, helse, hrun⟩ := run_bind_eq_ok.mp hrun
    obtain ⟨_, b₃, hclose, hparts⟩ := run_bind_eq_ok.mp hrun
    have hclosed := (((ha.working B).openOne hthen).openOne helse).close hclose
    have hbranch : ∀ value : Bool, Decides B retTy arms (do
        let newRows := rows.filterMap (L.keepLiteral (.bool value) occ)
        if newRows.isEmpty then
          throw (internalError "a match's bool switch left a branch with no covering arm")
        next newRows rest) (nextLeaves ((rows.map MatrixRow.candidate).filterMap
          (L.staysLiteral (.bool value))) (rest.map (·.ty))) := by
      intro value
      apply Lowers.ite
      · intro _
        exact lowers_throw_bind _
      · intro _
        exact decides_next hnext (keepLiteral_candidates occ (.bool value) rows) rfl
    have hforks := Forks.decideEach [(true, thenBlock), (false, elseBlock)] (·.2) _ _ hclosed
      (fun p => rfl) (fun p => hbranch p.1) hparts
    have hlast := hforks.2.2 (by simp)
    simp only [List.flatMap_cons, List.flatMap_nil, List.append_nil] at hforks hlast
    exact ⟨hforks.1.lands, hlast⟩

theorem decides_lowerLiteralChain (occ : Occurrence) (rest : List Occurrence)
    (rows : List MatrixRow) :
    Decides B retTy arms (lowerLiteralChain L next occ rest rows)
      (L.literalLeaves nextLeaves occ.ty (rest.map (·.ty)) (rows.map MatrixRow.candidate)) := by
  unfold lowerLiteralChain Lowering.literalLeaves
  rw [List.head?_map]
  cases hfirst : rows.head? with
  | none => exact lowers_throw _
  | some first =>
    simp only [Option.map_some, head_candidate]
    cases hclass : L.classify first.head with
    | wildcard =>
      refine decides_next hnext ?_ rfl
      rfl
    | bind binding =>
      refine decides_next hnext ?_ rfl
      rfl
    | case variant case args => exact lowers_throw _
    | literal lit =>
      intro a d u ha hrun
      obtain ⟨const, b₁, hconst, hrun⟩ := run_bind_eq_ok.mp hrun
      obtain ⟨eq, b₂, heq, hrun⟩ := run_bind_eq_ok.mp hrun
      obtain ⟨thenBlock, b₃, hthen, hrun⟩ := run_bind_eq_ok.mp hrun
      obtain ⟨elseBlock, b₄, helse, hrun⟩ := run_bind_eq_ok.mp hrun
      obtain ⟨_, b₅, hclose, hrun⟩ := run_bind_eq_ok.mp hrun
      obtain ⟨_, b₆, hturn, hrun⟩ := run_bind_eq_ok.mp hrun
      obtain ⟨_, b₇, hthenRun, hrun⟩ := run_bind_eq_ok.mp hrun
      obtain ⟨_, b₈, hback, hrun⟩ := run_bind_eq_ok.mp hrun
      obtain ⟨-, helseRun⟩ := run_guard_eq_ok.mp hrun
      have hkept := hnext (rows.filterMap (L.keepLiteral lit occ)) rest
      have hothers := hnext (rows.filter fun r => !(L.classify r.head).isLiteral lit) (occ :: rest)
      rw [keepLiteral_candidates] at hkept
      rw [others_candidates, List.map_cons] at hothers
      have htested := ((ha.working B).straight (straight_literalConst lit occ.ty) hconst).straight
        (straight_pushValue fun _ => rfl) heq
      have hclosed := ((htested.openOne hthen).openOne helse).close hclose
      have hthenForks := (hclosed.enter hturn).piece hkept hthenRun
      have helseForks := (hthenForks.1.enter hback).piece hothers helseRun
      rw [record_nil_append, ← record_leavesTrail_append] at helseForks
      have hne := helseForks.2.1
      refine ⟨helseForks.1.lands, List.append_ne_nil_of_right_ne_nil _ hne, ?_⟩
      rw [ending_leavesTrail_append hne]
      exact helseForks.2.2

omit hnext in
theorem lowers_extractPayload (occ : Occurrence) (item : ItemId) (case : ℕ) (payload : List Ty) :
    Lowers B retTy (extractPayload occ item case payload) {} fun occs ended =>
      ended = false ∧ occs.map (·.ty) = payload := by
  have hall : ∀ l : List (Ty × ℕ), Lowers B retTy (l.mapM fun p => do
      let value ← pushValue p.1 (.variantPayload occ.value item case p.2)
      modify fun fb => { fb with
        payloadSources := fb.payloadSources.insert value ⟨occ.value, item, case, p.2⟩ }
      pure (⟨value, p.1⟩ : Occurrence)) {} fun occs ended =>
      ended = false ∧ occs.map (·.ty) = l.map (·.1) := by
    intro l
    induction l with
    | nil =>
      rw [List.mapM_nil]
      intro a b occs ha hrun
      obtain ⟨rfl, rfl⟩ := run_pure_eq_ok.mp hrun
      exact ⟨.refl ha.isOpen.lt, FnBuilder.ended_of_open ha.isOpen, rfl⟩
    | cons p l ih =>
      rw [List.mapM_cons]
      intro a d occs ha hrun
      obtain ⟨first, b, hfirst, hrun⟩ := run_bind_eq_ok.mp hrun
      obtain ⟨value, b₁, hvalue, hnoted⟩ := run_bind_eq_ok.mp hfirst
      obtain ⟨_, b₂, hnote, hpure⟩ := run_bind_eq_ok.mp hnoted
      obtain ⟨rfl, rfl⟩ := run_pure_eq_ok.mp hpure
      obtain ⟨others, b₃, hothers, hpure⟩ := run_bind_eq_ok.mp hrun
      obtain ⟨rfl, rfl⟩ := run_pure_eq_ok.mp hpure
      have hpushed := (ha.working B).straight (straight_pushValue fun _ => rfl) hvalue
      have hnoted := hpushed.straight (@straight_modify B retTy
        (fun fb => { fb with
          payloadSources := fb.payloadSources.insert value ⟨occ.value, item, case, p.2⟩ })
        (fun _ => rfl) (fun _ => rfl) (fun _ => rfl) fun _ => rfl) hnote
      have hdone := hnoted.piece ih hothers
      rw [record_nil_append] at hdone
      refine ⟨hdone.1.lands, hdone.2.1, ?_⟩
      rw [List.map_cons, List.map_cons, hdone.2.2]
  have hpayload := hall payload.zipIdx
  rw [List.zipIdx_map_fst] at hpayload
  exact hpayload

omit hnext in
theorem map_snd_index {l : List γ} {blocks : List BlockId} (h : blocks.length ≤ l.length) :
    (l.zip blocks).map (fun p => p.2.index) = blocks.map (·.index) := by
  have hsnd := List.map_snd_zip h
  conv_rhs => rw [← hsnd, List.map_map]
  rfl

/-- The leaves of one case of a variant. -/
def caseLeaves (L : Lowering) (next : List Candidate → List Ty → List (Option ℕ)) (item : ItemId)
    (args : List Ty) (layout : VariantLayout) (rest : List Ty) (cs : List Candidate)
    (case : CaseLayout × ℕ) : List (Option ℕ) :=
  next (cs.filterMap (L.staysCase item case.2 case.1.payload.length))
    (casePayload layout args case.1 ++ rest)

theorem decides_lowerCase (occ : Occurrence) (rest : List Occurrence) (rows : List MatrixRow)
    (item : ItemId) {args : List Ty} {layout : VariantLayout} (case : ℕ) (shape : CaseLayout) :
    Decides B retTy arms (lowerCase L next occ rest rows item
        (((layout.typeParams.map (·.1)).zip args).foldl (fun s p => s.insert p.1 p.2) ∅) case shape)
      (nextLeaves ((rows.map MatrixRow.candidate).filterMap
        (L.staysCase item case shape.payload.length))
        (casePayload layout args shape ++ rest.map (·.ty))) := by
  intro a d u ha hrun
  obtain ⟨kept, b₁, hkept, hrun⟩ := run_bind_eq_ok.mp hrun
  obtain ⟨hkeeps, rfl⟩ := run_liftM_eq_ok.mp hkept
  obtain ⟨-, hrun⟩ := run_guard_eq_ok.mp hrun
  obtain ⟨occs, b₂, hoccs, hnextRun⟩ := run_bind_eq_ok.mp hrun
  have hread := lowers_extractPayload (B := B) occ item case _ ha hoccs
  have hrows := keepCase_candidates occ hkeeps
  rw [List.length_map] at hrows
  have hrest : (occs ++ rest).map (·.ty) = casePayload layout args shape ++ rest.map (·.ty) := by
    rw [List.map_append, hread.2.2]
    rfl
  have hdone := decides_next hnext hrows hrest (hread.1.ready ha hread.2.1) hnextRun
  have hlands := hread.1.trans hdone.1
  exact ⟨hlands, hdone.2⟩

theorem decides_lowerVariantSwitch (occ : Occurrence) (rest : List Occurrence)
    (rows : List MatrixRow) {item : ItemId} {args : List Ty} {layout : VariantLayout}
    (hdecl : declarationOf occ.ty = some (item, args))
    (hlayout : L.module.findVariant item = some layout) :
    Decides B retTy arms (lowerVariantSwitch L next occ rest rows)
      (L.variantLeaves nextLeaves item args layout (rest.map (·.ty))
        (rows.map MatrixRow.candidate)) := by
  have hany := any_candidate (L := L) Classified.isCase rows
  unfold lowerVariantSwitch Lowering.variantLeaves
  rw [hdecl]
  simp only [hlayout, Option.map_some, Option.getD_some]
  rw [hany]
  apply Lowers.ite
  · intro htests
    rw [if_pos htests]
    exact decides_next hnext (untested_candidates occ rows) rfl
  · intro htests a d u ha hrun
    rw [if_neg htests]
    obtain ⟨blocks, b₁, hblocks, hrun⟩ := run_bind_eq_ok.mp hrun
    obtain ⟨_, b₂, hclose, hparts⟩ := run_bind_eq_ok.mp hrun
    have hopened := (ha.working B).openEach hblocks
    have hended := (hopened.1.piece (lowers_terminate _) hclose).2
    have hclosed := hopened.1.close hclose
    have hcases : (layout.cases.zipIdx.zip blocks).map (·.1) = layout.cases.zipIdx :=
      List.map_fst_zip (by simp [hopened.2])
    have htargets : (layout.cases.zipIdx.zip blocks).map (fun p => p.2.index) ++ [] =
        [] ++ blocks.map (·.index) := by
      rw [List.append_nil, List.nil_append, map_snd_index (by simp [hopened.2])]
    rw [← htargets] at hclosed
    have hforks := Forks.decideEach (layout.cases.zipIdx.zip blocks) (·.2) _
      (fun p => caseLeaves L nextLeaves item args layout (rest.map (·.ty))
        (rows.map MatrixRow.candidate) p.1) hclosed (fun p => rfl)
      (fun p => decides_lowerCase hnext occ rest rows item p.1.2 p.1.1) hparts
    have hleaves : (layout.cases.zipIdx.zip blocks).flatMap (fun p =>
        caseLeaves L nextLeaves item args layout (rest.map (·.ty))
          (rows.map MatrixRow.candidate) p.1) =
        layout.cases.zipIdx.flatMap (caseLeaves L nextLeaves item args layout (rest.map (·.ty))
          (rows.map MatrixRow.candidate)) := by
      conv_rhs => rw [← hcases, List.flatMap_map]
    rw [hleaves, record_nil_append] at hforks
    by_cases hnone : layout.cases = []
    · rw [if_pos hnone]
      have hempty : layout.cases.zipIdx.zip blocks = [] := by simp [hnone]
      have hsame := hforks.2.1 hempty
      rw [hsame]
      exact ⟨hclosed.lands, by simp, hended⟩
    · rw [if_neg hnone]
      have hsome : layout.cases.zipIdx.zip blocks ≠ [] := by
        intro hempty
        rw [hempty] at hcases
        exact hnone (by simpa using hcases.symm)
      exact ⟨hforks.1.lands, hforks.2.2 hsome⟩

omit hnext in
theorem leaves_cons (n : ℕ) (cs : List Candidate) (ty : Ty) (rest : List Ty) :
    L.leaves (n + 1) cs (ty :: rest) =
      match (declarationOf ty).bind fun p => (L.module.findVariant p.1).map fun v => (p, v) with
      | some (p, layout) => L.variantLeaves (L.leaves n) p.1 p.2 layout rest cs
      | none => match ty with
        | .bool => L.boolLeaves (L.leaves n) rest cs
        | _ => L.literalLeaves (L.leaves n) ty rest cs := rfl

omit hnext in
/-- A decision comes to the leaves counted for it. -/
theorem decides_lowerDecision {lowerArm : ArmSink → ℕ → Build Unit} {sink : ArmSink}
    (harms : ∀ index, LowersStmt B retTy (lowerArm sink index) (arms.getD index {})) (n : ℕ)
    (rows : List MatrixRow) (occs : List Occurrence) :
    Decides B retTy arms (lowerDecision L lowerArm sink n rows occs)
      (L.leaves n (rows.map MatrixRow.candidate) (occs.map (·.ty))) := by
  induction n generalizing rows occs with
  | zero => exact lowers_throw _
  | succ n ih =>
    cases occs with
    | nil =>
      rw [lowerDecision, List.map_nil, Lowering.leaves, List.head?_map]
      cases rows.head? with
      | none => exact lowers_throw _
      | some winner =>
        apply (straight_enterArm winner).bind
        intro _
        exact decides_leaf (harms winner.armIndex)
    | cons occ rest =>
      have hother : Decides B retTy arms (match occ.ty with
          | .bool => lowerBoolSwitch L (lowerDecision L lowerArm sink n) occ rest rows
          | _ => lowerLiteralChain L (lowerDecision L lowerArm sink n) occ rest rows)
          (match occ.ty with
          | .bool => L.boolLeaves (L.leaves n) (rest.map (·.ty)) (rows.map MatrixRow.candidate)
          | _ => L.literalLeaves (L.leaves n) occ.ty (rest.map (·.ty))
              (rows.map MatrixRow.candidate)) := by
        split
        · exact decides_lowerBoolSwitch ih occ rest rows
        · exact decides_lowerLiteralChain ih occ rest rows
      unfold lowerDecision
      rw [List.map_cons, leaves_cons]
      cases hdecl : declarationOf occ.ty with
      | none => exact hother
      | some decl =>
        cases hlayout : L.module.findVariant decl.1 with
        | none =>
          simp only [Option.bind_some, hlayout]
          exact hother
        | some layout =>
          simp only [Option.bind_some, hlayout]
          exact decides_lowerVariantSwitch ih occ rest rows hdecl hlayout

end

end Napitia.Lower
